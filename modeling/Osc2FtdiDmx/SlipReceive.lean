import Osc2FtdiDmx.FramedStreams
import Osc2FtdiDmx.SlipDecode
import Osc2FtdiDmx.TransitionRuns

/-! Receiving SLIP frames in `_lv2_osc_stream_run_tcp` and `_lv2_osc_stream_run_ser`. The
byte stream is cut wherever `recv` or `read` cuts it, and `_write_req` refuses as it may. -/
namespace Osc2FtdiDmx.SlipReceive
open BytesEndian ByteStuffing FramedStreams SlipDecode TransitionRuns

/-- `sizeof(stream->rx_buf)`. -/
def rxSize : ℕ := 0x4000

/-- The packets committed by one call, the bytes it keeps for the next, and whether it sets
`ENOMEM`. -/
structure Drained where
  packets : List (List Byte)
  rest : List Byte
  refused : Bool
  deriving DecidableEq, Repr

/-- The loop over the received bytes; `i` counts the calls of `_write_req`. -/
def drain (grants : ℕ → Bool) : ℕ → ℕ → List Byte → Drained
  | 0, _, buf => ⟨[], buf, false⟩
  | fuel + 1, i, buf =>
      if buf = [] then ⟨[], [], false⟩
      else
        let decoded := slipDecode buf
        if decoded.size = 0 then
          if decoded.parsed = 0 then ⟨[], decoded.dst, false⟩
          else drain grants fuel i (decoded.dst.drop decoded.parsed)
        else if grants i then
          let packet := decoded.dst.take decoded.size
          if decoded.parsed = 0 then ⟨[packet], decoded.dst, false⟩
          else
            let drained := drain grants fuel (i + 1) (decoded.dst.drop decoded.parsed)
            { drained with packets := packet :: drained.packets }
        else ⟨[], decoded.dst, true⟩

inductive Port
  | tcp
  | serial
  deriving DecidableEq, Repr

/-- `pending` is the part of the byte stream that has not arrived. `refused` tells of the last
call that received bytes. -/
structure Link where
  pending : List Byte
  rx : List Byte
  committed : List (List Byte)
  refused : Bool
  isOpen : Bool
  deriving DecidableEq, Repr

def linkStart (sent : List (List Byte)) : Link :=
  ⟨encodings slipEncode sent, [], [], false, true⟩

/-- What `recv` returns: the next `n` bytes, -1 with `EAGAIN` or another error, or 0. -/
inductive Recv
  | bytes (n : ℕ) (grants : ℕ → Bool)
  | again
  | failed
  | zero

/-- One call. A TCP socket is closed on an error and on the result 0. -/
def recvAct (port : Port) (s : Link) : Recv → Option Link
  | .bytes n grants =>
      if s.isOpen ∧ 0 < n ∧ n ≤ rxSize - s.rx.length ∧ n ≤ s.pending.length then
        let buf := s.rx ++ s.pending.take n
        let drained := drain grants buf.length 0 buf
        some { s with
          pending := s.pending.drop n
          rx := drained.rest
          committed := s.committed ++ drained.packets
          refused := drained.refused }
      else none
  | .again => some s
  | .failed | .zero => some { s with isOpen := s.isOpen && decide (port = .serial) }

/-- The data bytes of the packet that have arrived with `part` are the very bytes that they
are written over. -/
def Spared (packet part : List Byte) : Prop := ∀ k ≤ packet.length,
  slipEnd :: slip.stuff (packet.take k) <+: part → packet.take k <+: part

instance (packet part : List Byte) : Decidable (Spared packet part) :=
  inferInstanceAs (Decidable (∀ k ≤ packet.length, _ → _))

/-- Of the packets that are waiting, the first that is incomplete or refused is spared; a
refused one leaves room for another byte. -/
def SparesHeld (grants : ℕ → Bool) : ℕ → List (List Byte) → List Byte → Prop
  | _, [], _ => True
  | i, packet :: packets, data =>
      if slipEncode packet <+: data then
        if grants i then
          SparesHeld grants (i + 1) packets (data.drop (slipEncode packet).length)
        else Spared packet (slipEncode packet) ∧ data.length < rxSize
      else Spared packet data

instance decidableSparesHeld (grants : ℕ → Bool) : ∀ i packets data,
    Decidable (SparesHeld grants i packets data)
  | _, [], _ => inferInstanceAs (Decidable True)
  | i, packet :: packets, data =>
      have := decidableSparesHeld grants (i + 1) packets (data.drop (slipEncode packet).length)
      inferInstanceAs (Decidable (ite _ (ite _ _ _) _))

/-- The condition on a call, with what was sent. -/
def Spares (sent : List (List Byte)) (s : Link) : Recv → Prop
  | .bytes n grants =>
      SparesHeld grants 0 (sent.drop s.committed.length) (s.rx ++ s.pending.take n)
  | _ => True

instance (sent : List (List Byte)) (s : Link) (l : Recv) : Decidable (Spares sent s l) :=
  match l with
  | .bytes _ _ => inferInstanceAs (Decidable (SparesHeld _ _ _ _))
  | .again | .failed | .zero => inferInstanceAs (Decidable True)

/-- The call that takes the last bytes is granted room for every packet that waits. -/
def GrantsLast (sent : List (List Byte)) (s : Link) : Recv → Prop
  | .bytes n grants =>
      s.pending.length ≤ n → ∀ i < sent.length - s.committed.length, grants i = true
  | _ => True

instance (sent : List (List Byte)) (s : Link) (l : Recv) : Decidable (GrantsLast sent s l) :=
  match l with
  | .bytes _ _ => inferInstanceAs (Decidable (_ → _))
  | .again | .failed | .zero => inferInstanceAs (Decidable True)

def Receives (sent : List (List Byte)) (s : Link) (l : Recv) : Prop :=
  Spares sent s l ∧ GrantsLast sent s l

instance (sent : List (List Byte)) (s : Link) (l : Recv) : Decidable (Receives sent s l) :=
  inferInstanceAs (Decidable (_ ∧ _))

/-- What the receiver keeps, whichever packets are refused. -/
structure Received (sent : List (List Byte)) (s : Link) : Prop where
  committed : s.committed <+: sent
  kept : encodings slipEncode s.committed ++ s.rx ++ s.pending = encodings slipEncode sent
  room : s.rx.length < rxSize
  granted : s.pending = [] → s.refused = false → s.committed = sent

/-- What the receiver owes the sender after every call. -/
structure Delivered (sent : List (List Byte)) (s : Link) : Prop extends Received sent s where
  whole : s.pending = [] → s.committed = sent

section Frames
variable {packet part data more : List Byte} {grants : ℕ → Bool} {fuel i : ℕ}

lemma slipEncode_ne_nil (packet : List Byte) : slipEncode packet ≠ [] := List.cons_ne_nil _ _

lemma length_lt_encode (packet : List Byte) : packet.length < (slipEncode packet).length := by
  have hstuff : packet.length ≤ (slip.stuff packet).length := Marks.length_le_stuff
  simp [slipEncode]
  omega

/-- A whole frame is spared if its packet repeats the frame's own bytes. -/
lemma spared_frame : Spared packet (slipEncode packet) ↔ packet <+: slipEncode packet := by
  constructor
  · intro h
    have hall := h packet.length le_rfl
    rw [List.take_length] at hall
    exact hall ⟨[slipEnd], by simp [slipEncode]⟩
  · exact fun h k _ _ => (List.take_prefix k packet).trans h

lemma spared_part (hdata : data <+: packet) (hstuff : slip.stuff data <+: part)
    (hmax : ∀ e, e <+: packet → slip.stuff e <+: part → e <+: data) :
    Spared packet (slipEnd :: part) ↔ data <+: slipEnd :: part := by
  constructor
  · intro h
    have hall := h data.length hdata.length_le
    rw [← List.prefix_iff_eq_take.mp hdata] at hall
    exact hall ((List.prefix_cons_inj _).mpr hstuff)
  · exact fun h k _ hk =>
      (hmax _ (List.take_prefix k packet) ((List.prefix_cons_inj _).mp hk)).trans h

/-- Frames that have not arrived as a whole, or not at all. -/
lemma part_of_frame (h : data <+: slipEncode packet) (hnot : ¬ slipEncode packet <+: data) :
    data = [] ∨ ∃ part, data = slipEnd :: part ∧ part <+: slip.stuff packet := by
  cases data with
  | nil => exact .inl rfl
  | cons b part =>
    refine .inr ⟨part, ?_⟩
    obtain ⟨rfl, hpart⟩ := List.cons_prefix_cons.mp h
    refine ⟨rfl, (List.prefix_concat_iff.mp hpart).resolve_left fun heq => hnot ?_⟩
    rw [heq]
    exact List.prefix_rfl

lemma drain_nil : drain grants fuel i [] = ⟨[], [], false⟩ := by
  cases fuel with
  | zero => rfl
  | succ fuel => exact if_pos rfl

lemma drain_frame (hne : packet ≠ []) :
    drain grants (fuel + 1) i (slipEncode packet ++ more) =
      if grants i then { drain grants fuel (i + 1) more with
        packets := packet :: (drain grants fuel (i + 1) more).packets }
      else ⟨[], overlay packet (slipEncode packet ++ more), true⟩ := by
  have hlt := length_lt_encode packet
  have hsize : packet.length ≠ 0 := List.length_eq_zero_iff.not.mpr hne
  have hparsed : (slipEncode packet).length ≠ 0 := by omega
  have hne' : slipEncode packet ++ more ≠ [] := by simp [slipEncode]
  have hdrop : (overlay packet (slipEncode packet ++ more)).drop (slipEncode packet).length =
      more := by
    rw [drop_overlay hlt.le, List.drop_left]
  simp only [drain, if_neg hne', slipDecode_frame, take_overlay, hdrop, if_neg hsize,
    if_neg hparsed]

lemma drain_part (grants : ℕ → Bool) (fuel i : ℕ) (hpart : part <+: slip.stuff packet) :
    ∃ covered, drain grants (fuel + 1) i (slipEnd :: part) =
        ⟨[], overlay covered (slipEnd :: part), false⟩ ∧
      (Spared packet (slipEnd :: part) ↔ covered <+: slipEnd :: part) := by
  obtain ⟨covered, hdecode, hcovered, hstuff, hmax⟩ := slipDecode_part hpart
  refine ⟨covered, ?_, spared_part hcovered hstuff hmax⟩
  simp [drain, hdecode]

/-- What a call makes of the bytes, which are a first part of the frames of `waiting`. -/
structure DrainSpec (grants : ℕ → Bool) (i : ℕ) (waiting : List (List Byte)) (data : List Byte)
    (drained : Drained) (held : List Byte) : Prop where
  packets : drained.packets <+: waiting
  split : data = encodings slipEncode drained.packets ++ held
  rest : drained.rest = held ∧ held.length < rxSize ↔ SparesHeld grants i waiting data
  granted : drained.refused = false → data = encodings slipEncode waiting →
    drained.packets = waiting
  whole : data = encodings slipEncode waiting →
    (drained.packets = waiting ↔ ∀ j < waiting.length, grants (i + j) = true)

lemma drainSpec_frame {waiting : List (List Byte)} {held : List Byte} (hne : packet ≠ [])
    (h : DrainSpec grants (i + 1) waiting more (drain grants fuel (i + 1) more) held) :
    ∃ held, DrainSpec grants i (packet :: waiting) (slipEncode packet ++ more)
      (drain grants (fuel + 1) i (slipEncode packet ++ more)) held := by
  rw [drain_frame hne]
  have hmore (hall : slipEncode packet ++ more = encodings slipEncode (packet :: waiting)) :
      more = encodings slipEncode waiting := by simpa using hall
  split_ifs with hgrant
  · refine ⟨held, (List.prefix_cons_inj _).mpr h.packets, ?_, ?_, fun hrefused hall => ?_,
      fun hall => ?_⟩
    · simp [← h.split]
    · simpa [SparesHeld, hgrant] using h.rest
    · exact congrArg (packet :: ·) (h.granted hrefused (hmore hall))
    · rw [List.cons_inj_right, h.whole (hmore hall), List.length_cons, Nat.forall_lt_succ_left]
      simp [hgrant, Nat.add_assoc, Nat.add_comm 1]
  · refine ⟨slipEncode packet ++ more, List.nil_prefix, rfl, ?_, by simp, fun _ => ?_⟩
    swap
    · exact iff_of_false (by simp) fun hall => hgrant (hall 0 (by simp))
    have hpre : packet <+: slipEncode packet ++ more ↔ packet <+: slipEncode packet :=
      ⟨fun hp => List.prefix_of_prefix_length_le hp (List.prefix_append _ _)
        (length_lt_encode packet).le, fun hp => hp.trans (List.prefix_append _ _)⟩
    simp [SparesHeld, hgrant, overlay_eq_self, spared_frame, hpre]

lemma drainSpec_part (waiting : List (List Byte)) (hlen : (slipEncode packet).length ≤ rxSize)
    (hdata : data <+: slipEncode packet) (hnot : ¬ slipEncode packet <+: data)
    (hfuel : data.length ≤ fuel) :
    DrainSpec grants i (packet :: waiting) data (drain grants fuel i data) data := by
  have hwhole : data ≠ encodings slipEncode (packet :: waiting) := by
    rintro rfl
    exact hnot (by simp)
  have hroom : data.length < rxSize := by
    refine (lt_of_le_of_ne hdata.length_le fun heq => hnot ?_).trans_le hlen
    rw [hdata.eq_of_length heq]
  obtain rfl | ⟨part, rfl, hpart⟩ := part_of_frame hdata hnot
  · rw [drain_nil]
    refine ⟨List.nil_prefix, rfl, ?_, fun _ hall => absurd hall hwhole,
      fun hall => absurd hall hwhole⟩
    simp [SparesHeld, rxSize, Spared, slipEncode]
  · obtain ⟨fuel, rfl⟩ := Nat.exists_eq_add_one.mpr ((List.length_pos_of_mem
      List.mem_cons_self).trans_le hfuel)
    obtain ⟨covered, hdrain, hspared⟩ := drain_part grants fuel i hpart
    rw [hdrain]
    refine ⟨List.nil_prefix, rfl, ?_, fun _ hall => absurd hall hwhole,
      fun hall => absurd hall hwhole⟩
    simp only [SparesHeld, if_neg hnot, hspared, overlay_eq_self, hroom, and_true]

lemma drain_spec {waiting : List (List Byte)}
    (hwaiting : ∀ p ∈ waiting, p ≠ [] ∧ (slipEncode p).length ≤ rxSize)
    (h : data <+: encodings slipEncode waiting) (hfuel : data.length ≤ fuel) :
    ∃ held, DrainSpec grants i waiting data (drain grants fuel i data) held := by
  induction waiting generalizing data fuel i with
  | nil =>
    obtain rfl := List.prefix_nil.mp h
    rw [drain_nil]
    exact ⟨[], List.prefix_rfl, rfl, by simp [SparesHeld, rxSize], fun _ _ => rfl, by simp⟩
  | cons packet waiting ih =>
    obtain ⟨⟨hne, hlen⟩, hwaiting⟩ := List.forall_mem_cons.mp hwaiting
    by_cases hframe : slipEncode packet <+: data
    · obtain ⟨more, rfl⟩ := hframe
      rw [encodings_cons, List.prefix_append_right_inj] at h
      have hlt := length_lt_encode packet
      rw [List.length_append] at hfuel
      obtain ⟨fuel, rfl⟩ : ∃ n, fuel = n + 1 := Nat.exists_eq_add_one.mpr (by omega)
      have hle : more.length ≤ fuel := by omega
      obtain ⟨held, hspec⟩ := ih hwaiting h hle
      exact drainSpec_frame hne hspec
    · rw [encodings_cons] at h
      have hdata := (List.prefix_or_prefix_of_prefix h (List.prefix_append _ _)).resolve_right
        hframe
      exact ⟨data, drainSpec_part waiting hlen hdata hframe hfuel⟩

end Frames

section Calls
variable {port : Port} {sent : List (List Byte)} {s t : Link} {l : Recv}

lemma recv_bytes {n : ℕ} {grants : ℕ → Bool}
    (hstep : recvAct port s (.bytes n grants) = some t) : ∃ drained,
      drained = drain grants (s.rx ++ s.pending.take n).length 0 (s.rx ++ s.pending.take n) ∧
      t.pending = s.pending.drop n ∧ t.rx = drained.rest ∧
      t.committed = s.committed ++ drained.packets ∧ t.refused = drained.refused := by
  simp only [recvAct, Option.ite_none_right_eq_some, Option.some.injEq] at hstep
  obtain ⟨-, rfl⟩ := hstep
  exact ⟨_, rfl, rfl, rfl, rfl, rfl⟩

/-- Every other result leaves the bytes and the packets alone. -/
lemma received_other (hl : ∀ n grants, l ≠ .bytes n grants)
    (hstep : recvAct port s l = some t) (h : Received sent s) :
    Received sent t ∧ t.pending = s.pending ∧ t.committed = s.committed := by
  cases l with
  | bytes n grants => exact absurd rfl (hl n grants)
  | again | failed | zero =>
    cases hstep
    exact ⟨⟨h.committed, h.kept, h.room, h.granted⟩, rfl, rfl⟩

lemma delivered_start (sent : List (List Byte)) : Delivered sent (linkStart sent) := by
  have hwhole : (linkStart sent).pending = [] → [] = sent := fun hpending =>
    (encodings_eq_nil slipEncode_ne_nil hpending).symm
  exact ⟨⟨List.nil_prefix, by simp [linkStart], by simp [linkStart, rxSize],
    fun hpending _ => hwhole hpending⟩, hwhole⟩

lemma received_iff {waiting : List (List Byte)} {n i : ℕ} {grants : ℕ → Bool} {drained : Drained}
    {held : List Byte} (hwaiting : s.committed ++ waiting = sent)
    (hkept : s.rx ++ s.pending.take n ++ s.pending.drop n = encodings slipEncode waiting)
    (hspec : DrainSpec grants i waiting (s.rx ++ s.pending.take n) drained held)
    (hpending : t.pending = s.pending.drop n) (hrx : t.rx = drained.rest)
    (hcommitted : t.committed = s.committed ++ drained.packets)
    (hrefused : t.refused = drained.refused) :
    Received sent t ↔ drained.rest = held ∧ held.length < rxSize := by
  rw [hspec.split, List.append_assoc] at hkept
  constructor
  · intro h
    have hall := h.kept
    rw [hcommitted, hrx, hpending, ← hwaiting, encodings_append, encodings_append, ← hkept] at hall
    simp only [List.append_assoc, List.append_cancel_left_eq] at hall
    have hrest : drained.rest = held := List.append_cancel_right hall
    exact ⟨hrest, by simpa [hrx, hrest] using h.room⟩
  · rintro ⟨hrest, hroom⟩
    refine ⟨?_, ?_, by rwa [hrx, hrest], fun hnil hnot => ?_⟩
    · rw [hcommitted, ← hwaiting]
      exact (List.prefix_append_right_inj _).mpr hspec.packets
    · rw [hcommitted, hrx, hrest, hpending, ← hwaiting, encodings_append, encodings_append,
        ← hkept]
      simp only [List.append_assoc]
    · rw [hpending] at hnil
      have hdata : s.rx ++ s.pending.take n = encodings slipEncode waiting := by
        rw [hspec.split, ← hkept, hnil, List.append_nil]
      rw [hcommitted, hspec.granted (hrefused ▸ hnot) hdata, hwaiting]

/-- What one call makes of the bytes, with the packets that wait. -/
lemma recv_drained (hsent : ∀ p ∈ sent, p ≠ [] ∧ (slipEncode p).length ≤ rxSize)
    (h : Received sent s) {n : ℕ} {grants : ℕ → Bool}
    (hstep : recvAct port s (.bytes n grants) = some t) : ∃ waiting drained held,
      s.committed ++ waiting = sent ∧
      s.rx ++ s.pending.take n ++ s.pending.drop n = encodings slipEncode waiting ∧
      DrainSpec grants 0 waiting (s.rx ++ s.pending.take n) drained held ∧
      t.pending = s.pending.drop n ∧ t.rx = drained.rest ∧
      t.committed = s.committed ++ drained.packets ∧ t.refused = drained.refused := by
  obtain ⟨drained, hdrained, hstate⟩ := recv_bytes hstep
  obtain ⟨waiting, hwaiting⟩ := h.committed
  have hkept : s.rx ++ s.pending.take n ++ s.pending.drop n = encodings slipEncode waiting := by
    rw [List.append_assoc, List.take_append_drop, ← encodings_waiting hwaiting, ← h.kept,
      List.append_assoc]
  have hbounds : ∀ p ∈ waiting, p ≠ [] ∧ (slipEncode p).length ≤ rxSize := fun p hp =>
    hsent p (hwaiting ▸ List.mem_append_right _ hp)
  obtain ⟨held, hspec⟩ : ∃ held, DrainSpec grants 0 waiting _ drained held :=
    hdrained ▸ drain_spec hbounds ⟨_, hkept⟩ le_rfl
  exact ⟨waiting, drained, held, hwaiting, hkept, hspec, hstate⟩

/-- One call keeps the bytes exactly where the packets that it holds back are spared. -/
lemma received_step (hsent : ∀ p ∈ sent, p ≠ [] ∧ (slipEncode p).length ≤ rxSize)
    (h : Received sent s) (hstep : recvAct port s l = some t) :
    Received sent t ↔ Spares sent s l := by
  cases l with
  | bytes n grants =>
    obtain ⟨waiting, drained, held, hwaiting, hkept, hspec, hpending, hrx, hcommitted, hrefused⟩ :=
      recv_drained hsent h hstep
    have hdrop : sent.drop s.committed.length = waiting := by
      rw [← hwaiting, List.drop_left]
    rw [Spares, hdrop, ← hspec.rest]
    exact received_iff hwaiting hkept hspec hpending hrx hcommitted hrefused
  | again | failed | zero =>
    exact iff_of_true (received_other (by simp) hstep h).1 trivial

/-- Where it takes the last bytes, all packets are committed exactly if none is refused. -/
lemma whole_step (hsent : ∀ p ∈ sent, p ≠ [] ∧ (slipEncode p).length ≤ rxSize)
    (h : Delivered sent s) (hstep : recvAct port s l = some t) :
    (t.pending = [] → t.committed = sent) ↔ GrantsLast sent s l := by
  cases l with
  | bytes n grants =>
    obtain ⟨waiting, drained, held, hwaiting, hkept, hspec, hpending, -, hcommitted, -⟩ :=
      recv_drained hsent h.toReceived hstep
    have hcount : sent.length - s.committed.length = waiting.length := by
      simp [← hwaiting]
    rw [GrantsLast, hpending, hcommitted, ← hwaiting, List.append_cancel_left_eq,
      List.drop_eq_nil_iff, hwaiting, hcount]
    refine imp_congr_right fun hle => ?_
    rw [List.drop_eq_nil_of_le hle, List.append_nil] at hkept
    simpa using hspec.whole hkept
  | again | failed | zero =>
    obtain ⟨-, hpending, hcommitted⟩ := received_other (by simp) hstep h.toReceived
    exact iff_of_true (by rw [hpending, hcommitted]; exact h.whole) trivial

lemma delivered_step (hsent : ∀ p ∈ sent, p ≠ [] ∧ (slipEncode p).length ≤ rxSize)
    (h : Delivered sent s) (hstep : recvAct port s l = some t) :
    Delivered sent t ↔ Receives sent s l := by
  rw [Receives, ← received_step hsent h.toReceived hstep, ← whole_step hsent h hstep]
  exact ⟨fun ht => ⟨ht.toReceived, ht.whole⟩, fun ⟨ht, hwhole⟩ => ⟨ht, hwhole⟩⟩

end Calls

/-- In every run in which each call spares the packet that it holds back, and the one that
takes the last bytes is refused nothing, the packets committed are the first of those sent,
the bytes behind them are kept as they arrived, and all packets are committed as soon as all
bytes have arrived. A call that does otherwise breaks this. -/
theorem slip_segments (port : Port) (sent : List (List Byte))
    (hsent : ∀ p ∈ sent, p ≠ [] ∧ (slipEncode p).length ≤ rxSize) (s : Link)
    (hrun : RunsTo (Steps (recvAct port)) (Receives sent) (linkStart sent) s) :
    Delivered sent s ∧
      ∀ l t, recvAct port s l = some t → (Delivered sent t ↔ Receives sent s l) := by
  have hdelivered : Delivered sent s :=
    hrun.invariant (delivered_start sent) fun _ _ _ h hok hstep =>
      (delivered_step hsent h hstep).mpr hok
  exact ⟨hdelivered, fun l t => delivered_step hsent hdelivered⟩

/-- The second packet is cut behind an escape pair that stands for `END`, and the third one
is refused by the call that brings it. -/
theorem slip_segments_cut : ∃ s, Delivered [[0x61], [0xc0, 0x62], [0xc0], [0x62]] s ∧
    s.committed = [[0x61], [0xc0, 0x62], [0xc0], [0x62]] := by
  let sent : List (List Byte) := [[0x61], [0xc0, 0x62], [0xc0], [0x62]]
  obtain ⟨s, hs, hcommitted⟩ : ∃ s, follow (recvAct .tcp) (Receives sent) (linkStart sent)
      [.bytes 6 fun _ => true, .again, .bytes 6 (· = 0), .bytes 3 fun _ => true] = some s ∧
      s.committed = sent := by
    refine ⟨⟨[], [], sent, false, true⟩, ?_, rfl⟩
    decide +kernel
  have hrun := runsTo_follow (recvAct .tcp) (Receives sent) RunsTo.refl hs
  exact ⟨s, (slip_segments .tcp sent (by decide +kernel) s hrun).1, hcommitted⟩

/-- A frame that is cut behind its first data byte is lost. -/
theorem slip_cut_lost : ¬ ∀ (port : Port) (sent : List (List Byte)),
    (∀ p ∈ sent, p ≠ [] ∧ (slipEncode p).length ≤ rxSize) →
    ∀ s, RunsTo (Steps (recvAct port)) Free (linkStart sent) s →
      s.pending = [] → s.refused = false → s.committed = sent := by
  intro h
  have hfollow : follow (recvAct .tcp) Free (linkStart [[0x61, 0x62]])
      [.bytes 2 fun _ => true, .bytes 2 fun _ => true] = some ⟨[], [], [], false, true⟩ := by
    decide +kernel
  have hrun := runsTo_follow (recvAct .tcp) Free RunsTo.refl hfollow
  have hwhole := h .tcp [[0x61, 0x62]] (by decide +kernel) _ hrun rfl rfl
  simp at hwhole

end Osc2FtdiDmx.SlipReceive
