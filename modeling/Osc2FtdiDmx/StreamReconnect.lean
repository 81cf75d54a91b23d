import Osc2FtdiDmx.SlipReceive

/-! SLIP frames over two connections. `rx_buf` and `rx_off` stay as they are when a connection
ends and another one is accepted. -/
namespace Osc2FtdiDmx.StreamReconnect
open BytesEndian ByteStuffing FramedStreams SlipDecode SlipReceive TransitionRuns

/-- Another connection, on which the packets `next` are sent. -/
def reconnected (s : Link) (next : List (List Byte)) : Link :=
  { s with pending := encodings slipEncode next, isOpen := true }

/-- What is committed of the bytes that are left of the first connection and of the first
packet of the second one. Whole frames that were held back come first. A packet that was cut
is committed as far as it came, and the first packet is lost, or it is committed as the end
of the other where the cut is behind an escape. -/
inductive Resumed (packet : List Byte) : List Byte → List (List Byte) → Prop
  | clean : Resumed packet [] [packet]
  | cut (e : List Byte) : Resumed packet (slipEnd :: slip.stuff e) (if e = [] then [] else [e])
  | escaped (e : List Byte) :
      Resumed packet (slipEnd :: (slip.stuff e ++ [slipEsc])) [e ++ packet]
  | frame {w rx : List Byte} {front : List (List Byte)} (hw : w ≠ [])
      (h : Resumed packet rx front) : Resumed packet (slipEncode w ++ rx) (w :: front)

section Frames
variable {packet rx more e : List Byte} {front waiting : List (List Byte)} {grants : ℕ → Bool}
  {fuel i : ℕ}

lemma resumed_of_kept (hwaiting : ∀ p ∈ waiting, p ≠ []) (h : rx <+: encodings slipEncode waiting) :
    ∃ front, Resumed packet rx front := by
  induction waiting generalizing rx with
  | nil =>
    obtain rfl := List.prefix_nil.mp h
    exact ⟨_, .clean⟩
  | cons w waiting ih =>
    obtain ⟨hw, hwaiting⟩ := List.forall_mem_cons.mp hwaiting
    rw [encodings_cons] at h
    by_cases hframe : slipEncode w <+: rx
    · obtain ⟨rx, rfl⟩ := hframe
      obtain ⟨front, hfront⟩ := ih hwaiting ((List.prefix_append_right_inj _).mp h)
      exact ⟨w :: front, .frame hw hfront⟩
    · have hrx := (List.prefix_or_prefix_of_prefix h (List.prefix_append _ _)).resolve_right hframe
      obtain rfl | ⟨part, rfl, hpart⟩ := part_of_frame hrx hframe
      · exact ⟨_, .clean⟩
      · obtain ⟨e, tail, -, rfl, rfl | rfl⟩ := Marks.prefix_stuff hpart
        · exact ⟨_, by simpa using Resumed.cut e⟩
        · exact ⟨_, .escaped e⟩

lemma Resumed.bounds (hne : packet ≠ []) (h : Resumed packet rx front) : ∀ p ∈ front,
    p ≠ [] ∧ (slipEncode p).length ≤ rx.length + (slipEncode packet).length := by
  induction h with
  | clean => simp [hne]
  | cut e =>
    by_cases he : e = []
    · simp [he]
    · simp [he, slipEncode]
  | escaped e =>
    simp [hne, slipEncode]
    omega
  | frame hw h ih =>
    rw [List.forall_mem_cons, List.length_append]
    exact ⟨⟨hw, by omega⟩, fun p hp => ⟨(ih p hp).1, (ih p hp).2.trans (by omega)⟩⟩

lemma Resumed.of_nil (h : Resumed packet [] front) : front = [packet] := by
  generalize hnil : ([] : List Byte) = rx at h
  cases h with
  | clean => rfl
  | cut e => cases hnil
  | escaped e => cases hnil
  | frame hw h => simp [slipEncode] at hnil

/-- Without a mark in front the frame is passed over. -/
lemma drain_tail (hne : packet ≠ []) : drain grants (fuel + 1) i
    (slip.stuff packet ++ slipEnd :: more) = drain grants fuel i more := by
  obtain ⟨data, hdata⟩ : ∃ data, data = slip.stuff packet ++ slipEnd :: more := ⟨_, rfl⟩
  have hunstuff : slip.unstuff data = (packet, some more) := hdata ▸ Marks.unstuff_stuff_stop
  have hdecode : slipDecode data =
      ⟨overlay packet data, 0, (slip.stuff packet).length + 1⟩ := by
    have hloop := @decodeFrom_eq [] data data 0 false rfl
    rw [List.nil_append] at hloop
    have hhead : data.head? ≠ some slipEnd := hdata ▸ Marks.head_stuff hne
    rw [slipDecode, if_neg hhead]
    refine hloop.trans ?_
    rw [decodedAs, hunstuff]
    simp [hdata]
    omega
  have hdrop : (overlay packet data).drop ((slip.stuff packet).length + 1) = more := by
    have hle : packet.length ≤ (slip.stuff packet).length := Marks.length_le_stuff
    rw [drop_overlay (by omega), hdata]
    simp
  have hnil : data ≠ [] := by simp [hdata]
  rw [← hdata, drain, if_neg hnil, hdecode]
  simp [hdrop]

/-- The frame goes on behind the escape, which takes the mark with it. -/
lemma drain_escaped (hne : packet ≠ []) (hgrant : grants i = true) : drain grants (fuel + 1) i
    (slipEnd :: (slip.stuff e ++ [slipEsc]) ++ (slipEncode packet ++ more)) =
      { drain grants fuel (i + 1) more with
        packets := (e ++ packet) :: (drain grants fuel (i + 1) more).packets } := by
  obtain ⟨rest, hrest⟩ : ∃ rest, rest = slip.stuff e ++ slipEsc :: slipEnd ::
      (slip.stuff packet ++ slipEnd :: more) := ⟨_, rfl⟩
  have hsplit : slipEnd :: (slip.stuff e ++ [slipEsc]) ++ (slipEncode packet ++ more) =
      slipEnd :: rest := by simp [hrest, slipEncode]
  have hunstuff : slip.unstuff rest = (e ++ packet, some more) := by
    have hback : slip.unstuff (slip.stuff packet ++ slipEnd :: more) = (packet, some more) :=
      Marks.unstuff_stuff_stop
    have hpair : slip.unstuff (slipEsc :: slipEnd :: (slip.stuff packet ++ slipEnd :: more)) =
        (slip.escaped slipEnd ++ packet, some more) := by
      refine Marks.unstuff_esc.trans ?_
      rw [hback]
    rw [hrest, Marks.unstuff_stuff_append, hpair]
    rfl
  have hdecode : slipDecode (slipEnd :: rest) = ⟨overlay (e ++ packet) (slipEnd :: rest),
      (e ++ packet).length, 1 + rest.length - more.length⟩ := by
    rw [slipDecode_cons, decodedAs, hunstuff]
    simp
  have hle : (e ++ packet).length ≤ (slip.stuff (e ++ packet)).length := Marks.length_le_stuff
  have hlen : rest.length = (slip.stuff (e ++ packet)).length + 3 + more.length := by
    simp [hrest]
    omega
  have hpos := List.length_pos_iff.mpr hne
  have hdrop : (overlay (e ++ packet) (slipEnd :: rest)).drop (1 + rest.length - more.length) =
      more := by
    have hback : slipEnd :: rest =
        slipEnd :: (slip.stuff e ++ slipEsc :: slipEnd :: (slip.stuff packet ++ [slipEnd])) ++
          more := by simp [hrest]
    rw [drop_overlay (by omega), hback, List.drop_left']
    have hsum := congrArg List.length hback
    rw [List.length_append, List.length_cons] at hsum
    omega
  have htake : (overlay (e ++ packet) (slipEnd :: rest)).take (e ++ packet).length = e ++ packet :=
    take_overlay _ _
  have hsize : (e ++ packet).length ≠ 0 := by
    rw [List.length_append]
    omega
  rw [hsplit, drain, if_neg (List.cons_ne_nil _ _), hdecode]
  dsimp only
  rw [if_neg hsize, if_pos hgrant, if_neg (by omega), hdrop, htake]

/-- A frame without a packet is passed over as well. -/
lemma drain_empty : drain grants (fuel + 1) i (slipEncode [] ++ more) =
    drain grants fuel i more := by
  have hdecode := slipDecode_frame [] more
  rw [drain, if_neg (by simp [slipEncode]), hdecode]
  rfl

/-- The packets at the front are committed if room is granted for them, and the loop goes on
behind the first packet. By induction on what is left of the first connection. -/
lemma drain_resumed (hne : packet ≠ []) (h : Resumed packet rx front)
    (hgrants : ∀ j < front.length, grants (i + j) = true)
    (hfuel : (rx ++ (slipEncode packet ++ more)).length ≤ fuel) : ∃ fuel', more.length ≤ fuel' ∧
      drain grants fuel i (rx ++ (slipEncode packet ++ more)) =
        { drain grants fuel' (i + front.length) more with
          packets := front ++ (drain grants fuel' (i + front.length) more).packets } := by
  have hlen : (slipEncode packet).length = (slip.stuff packet).length + 2 := by simp [slipEncode]
  rw [List.length_append, List.length_append, hlen] at hfuel
  induction h generalizing fuel i with
  | clean =>
    obtain ⟨fuel, rfl⟩ : ∃ n, fuel = n + 1 := Nat.exists_eq_add_one.mpr (by omega)
    refine ⟨fuel, by omega, ?_⟩
    rw [List.nil_append, drain_frame hne, if_pos (show grants i = true from hgrants 0 Nat.one_pos)]
    rfl
  | cut e =>
    obtain ⟨fuel, rfl⟩ : ∃ n, fuel = n + 2 := ⟨fuel - 2, by omega⟩
    have hsplit : slipEnd :: slip.stuff e ++ (slipEncode packet ++ more) =
        slipEncode e ++ (slip.stuff packet ++ slipEnd :: more) := by simp [slipEncode]
    refine ⟨fuel, by omega, ?_⟩
    rw [hsplit]
    by_cases he : e = []
    · rw [he, drain_empty, drain_tail hne]
      rfl
    · rw [if_neg he] at hgrants ⊢
      rw [drain_frame he, if_pos (show grants i = true from hgrants 0 Nat.one_pos), drain_tail hne]
      rfl
  | escaped e =>
    obtain ⟨fuel, rfl⟩ : ∃ n, fuel = n + 1 := Nat.exists_eq_add_one.mpr (by omega)
    exact ⟨fuel, by omega, drain_escaped hne (hgrants 0 Nat.one_pos)⟩
  | @frame w rx front hw h ih =>
    obtain ⟨fuel, rfl⟩ : ∃ n, fuel = n + 1 := Nat.exists_eq_add_one.mpr (by omega)
    have hframe := length_lt_encode w
    rw [List.length_append] at hfuel
    rw [List.length_cons] at hgrants ⊢
    have hnext : ∀ j < front.length, grants (i + 1 + j) = true := fun j hj => by
      rw [Nat.add_assoc, Nat.add_comm 1]
      exact hgrants (j + 1) (by omega)
    obtain ⟨fuel', hle, hdrain⟩ := @ih fuel (i + 1) hnext (by omega)
    refine ⟨fuel', hle, ?_⟩
    rw [List.append_assoc, drain_frame hw, if_pos (show grants i = true from hgrants 0 (by omega)),
      hdrain, Nat.add_assoc i 1, Nat.add_comm 1]
    rfl

end Frames

section Connections
variable {port : Port} {s t : Link} {packet : List Byte} {rest front : List (List Byte)} {n : ℕ}

/-- What is behind the first packet, as far as it is read with it. -/
def behind (packet : List Byte) (rest : List (List Byte)) (n : ℕ) : List Byte :=
  (encodings slipEncode rest).take (n - (slipEncode packet).length)

/-- The call spares the packet of `rest` that it holds back, and is granted room for every
one of them if it takes the last bytes. -/
def ResumesWell (packet : List Byte) (front rest : List (List Byte)) (n : ℕ) (grants : ℕ → Bool) :
    Prop :=
  SparesHeld grants front.length rest (behind packet rest n) ∧
    ((encodings slipEncode (packet :: rest)).length ≤ n →
      ∀ j < rest.length, grants (front.length + j) = true)

instance (packet : List Byte) (front rest : List (List Byte)) (n : ℕ) (grants : ℕ → Bool) :
    Decidable (ResumesWell packet front rest n grants) :=
  inferInstanceAs (Decidable (_ ∧ (_ → _)))

/-- From the first call on the packets are as if those at the front and the rest had been
sent on one connection. -/
lemma resumed_step (hne : packet ≠ [])
    (hrest : ∀ p ∈ rest, p ≠ [] ∧ (slipEncode p).length ≤ rxSize)
    (hresumed : Resumed packet s.rx front) (hn : (slipEncode packet).length ≤ n)
    (hgrants : ∀ j < front.length, grants j = true)
    (hstep : recvAct port (reconnected s (packet :: rest)) (.bytes n grants) = some t) :
    Delivered (s.committed ++ front ++ rest) t ↔ ResumesWell packet front rest n grants := by
  obtain ⟨drained, hdrained, hpending, hrx, hcommitted, hrefused⟩ := recv_bytes hstep
  have htake : (reconnected s (packet :: rest)).pending.take n =
      slipEncode packet ++ behind packet rest n := by
    rw [reconnected, encodings_cons, List.take_append, List.take_of_length_le hn, behind]
  have hdrop : (reconnected s (packet :: rest)).pending.drop n =
      (encodings slipEncode rest).drop (n - (slipEncode packet).length) := by
    rw [reconnected, encodings_cons, List.drop_append, List.drop_eq_nil_of_le hn, List.nil_append]
  rw [htake] at hdrained
  obtain ⟨fuel, hfuel, hdrain⟩ := drain_resumed (i := 0) hne hresumed (by simpa using hgrants) le_rfl
  have hrxs : (reconnected s (packet :: rest)).rx = s.rx := rfl
  rw [hrxs, hdrain, Nat.zero_add] at hdrained
  obtain ⟨held, hspec⟩ : ∃ held, DrainSpec grants front.length rest (behind packet rest n)
      (drain grants fuel front.length (behind packet rest n)) held :=
    drain_spec hrest (List.take_prefix _ _) hfuel
  -- the state on the one connection, before it has read what is behind the first packet
  let u : Link := ⟨encodings slipEncode rest, [], s.committed ++ front, false, true⟩
  have hkept : u.rx ++ behind packet rest n ++
      u.pending.drop (n - (slipEncode packet).length) = encodings slipEncode rest := by
    rw [List.nil_append, behind, List.take_append_drop]
  have hcommitted' : t.committed = u.committed ++
      (drain grants fuel front.length (behind packet rest n)).packets := by
    rw [hcommitted, hdrained, List.append_assoc]
    rfl
  have hrx' : t.rx = (drain grants fuel front.length (behind packet rest n)).rest := by
    rw [hrx, hdrained]
  have hrefused' : t.refused =
      (drain grants fuel front.length (behind packet rest n)).refused := by
    rw [hrefused, hdrained]
  have hreceived : Received (s.committed ++ front ++ rest) t ↔ _ :=
    received_iff (s := u) rfl hkept hspec (hpending.trans hdrop) hrx' hcommitted' hrefused'
  have hwhole : (t.pending = [] → t.committed = s.committed ++ front ++ rest) ↔
      ((encodings slipEncode (packet :: rest)).length ≤ n →
        ∀ j < rest.length, grants (front.length + j) = true) := by
    have hall : (encodings slipEncode rest).length ≤ n - (slipEncode packet).length ↔
        (encodings slipEncode (packet :: rest)).length ≤ n := by
      rw [encodings_cons, List.length_append]
      omega
    rw [hpending, hdrop, hcommitted', List.append_cancel_left_eq, List.drop_eq_nil_iff, ← hall]
    refine imp_congr_right fun hle => hspec.whole ?_
    rw [behind, List.take_of_length_le hle]
  rw [ResumesWell, ← hspec.rest, ← hreceived, ← hwhole]
  exact ⟨fun ht => ⟨ht.toReceived, ht.whole⟩, fun ⟨ht, hwhole⟩ => ⟨ht, hwhole⟩⟩

end Connections

/-- Wherever a connection ends, what it leaves in `rx_buf` decides what becomes of the first
packet of the next one, whose frame is read with one call that is granted room for the packets
at the front. If that call spares the packet of the rest that it holds back, every run from
there on commits the whole frames that were left, then what is made of the cut frame and of
the first packet, and then the other packets as if nothing had happened. -/
theorem reconnect_law (port : Port) (sent : List (List Byte))
    (hsent : ∀ p ∈ sent, p ≠ [] ∧ (slipEncode p).length ≤ rxSize) (s : Link)
    (hrun : RunsTo (Steps (recvAct port)) (Spares sent) (linkStart sent) s)
    (packet : List Byte) (rest : List (List Byte))
    (hnext : ∀ p ∈ packet :: rest, p ≠ [] ∧ (slipEncode p).length ≤ rxSize) :
    ∃ front, Resumed packet s.rx front ∧ (s.rx = [] → front = [packet]) ∧
      ∀ n grants t, (slipEncode packet).length ≤ n → (∀ j < front.length, grants j = true) →
        recvAct port (reconnected s (packet :: rest)) (.bytes n grants) = some t →
        (Delivered (s.committed ++ front ++ rest) t ↔ ResumesWell packet front rest n grants) ∧
        ∀ u, Delivered (s.committed ++ front ++ rest) t →
          RunsTo (Steps (recvAct port)) (Receives (s.committed ++ front ++ rest)) t u →
          Delivered (s.committed ++ front ++ rest) u := by
  have hreceived : Received sent s := hrun.invariant (delivered_start sent).toReceived
    fun _ _ _ h hok hstep => (received_step hsent h hstep).mpr hok
  obtain ⟨waiting, hwaiting⟩ := hreceived.committed
  obtain ⟨⟨hne, -⟩, hrest⟩ := List.forall_mem_cons.mp hnext
  have hkept : s.rx ++ s.pending = encodings slipEncode waiting := by
    rw [← encodings_waiting hwaiting, ← hreceived.kept, List.append_assoc]
  obtain ⟨front, hresumed⟩ : ∃ front, Resumed packet s.rx front :=
    resumed_of_kept (fun p hp => (hsent p (hwaiting ▸ List.mem_append_right _ hp)).1) ⟨_, hkept⟩
  refine ⟨front, hresumed, fun hclean => (hclean ▸ hresumed).of_nil,
    fun n grants t hn hgrants hstep => ⟨resumed_step hne hrest hresumed hn hgrants hstep,
      fun u ht hrun => ?_⟩⟩
  have hroom : s.rx.length + (slipEncode packet).length ≤ rxSize := by
    simp only [recvAct, reconnected, Option.ite_none_right_eq_some] at hstep
    have hroom := hreceived.room
    omega
  have hbounds : ∀ p ∈ s.committed ++ front ++ rest, p ≠ [] ∧ (slipEncode p).length ≤ rxSize := by
    intro p hp
    rw [List.mem_append, List.mem_append] at hp
    obtain (hp | hp) | hp := hp
    · exact hsent p (hwaiting ▸ List.mem_append_left _ hp)
    · exact ⟨(hresumed.bounds hne p hp).1, (hresumed.bounds hne p hp).2.trans hroom⟩
    · exact hrest p hp
  exact hrun.invariant ht fun _ _ _ h hok hstep => (delivered_step hbounds h hstep).mpr hok

/-- The first connection ends behind an escape pair: the byte for `END` is committed as a
packet, and the first packet of the second connection is lost. -/
theorem reconnect_law_cut : ∃ (s : Link) (front : List (List Byte)) (t : Link),
    s.rx = [0xc0, 0xdb, 0xdc] ∧ Resumed [0x61] s.rx front ∧
      Delivered (s.committed ++ front ++ [[0x62]]) t ∧ t.committed = [[0xc0], [0x62]] := by
  let s : Link := ⟨[0x62, 0xc0], [0xc0, 0xdb, 0xdc], [], false, false⟩
  let t : Link := ⟨[], [], [[0xc0], [0x62]], false, true⟩
  have hfollow : follow (recvAct .tcp) (Spares [[0xc0, 0x62]]) (linkStart [[0xc0, 0x62]])
      [.bytes 3 fun _ => true, .zero] = some s := by decide +kernel
  have hrun := runsTo_follow _ _ RunsTo.refl hfollow
  have hstep : recvAct .tcp (reconnected s [[0x61], [0x62]]) (.bytes 6 fun _ => true) =
      some t := by decide +kernel
  obtain ⟨front, hresumed, -, hcall⟩ := reconnect_law .tcp [[0xc0, 0x62]]
    (by decide +kernel) s hrun [0x61] [[0x62]] (by decide +kernel)
  obtain ⟨hdelivered, -⟩ := hcall 6 (fun _ => true) t (by decide) (by simp) hstep
  have hframe : slipEncode [0x62] <+: behind [0x61] [[0x62]] 6 := by decide +kernel
  have hspares : SparesHeld (fun _ => true) front.length [[0x62]] (behind [0x61] [[0x62]] 6) := by
    rw [SparesHeld, if_pos hframe]
    trivial
  exact ⟨s, front, t, rfl, hresumed, hdelivered.mpr ⟨hspares, by simp⟩, rfl⟩

end Osc2FtdiDmx.StreamReconnect
