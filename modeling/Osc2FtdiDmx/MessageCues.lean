import Osc2FtdiDmx.LightingDesk
import Osc2FtdiDmx.MessageLaw
import Osc2FtdiDmx.PacketFlatten
import Osc2FtdiDmx.SlotRefinement

/-! What the messages of a packet mean for the desk of the slots: the cue of a message,
and packets that are trees of well-formed messages. -/
namespace Osc2FtdiDmx.MessageCues
open BytesEndian OscMemory OscReader ReaderSpecs PacketHandler PacketFlatten MessageEncoding
open PriorityLevels SlotStore SlotRefinement LightingDesk OscTree TreeWalk MessageLaw

/-- Leave a pair with the byte of the argument in force, or without one. -/
def update (pair : Pair) : Option Byte → Update Pair Byte
  | some v => .set pair v
  | none => .clear pair

@[simp] lemma update_key (pair : Pair) (v : Option Byte) : (update pair v).key = pair := by
  cases v <;> rfl

@[simp] lemma update_value (pair : Pair) (v : Option Byte) : (update pair v).value = v := by
  cases v <;> rfl

variable (pm : List Byte → List Byte → Bool)

/-- One update for each pair that the message visits, in the order of the walk. -/
def messageCue (msg : Message) : Cue Pair Byte :=
  (visited pm msg.path.chars).zipIdx.map fun pair =>
    update pair.1 (lastLevel (msg.args.take (pair.2 + 1)))

variable {pm}

lemma mem_messageCue {msg : Message} {u : Update Pair Byte} :
    u ∈ messageCue pm msg ↔ ∃ k pair, (visited pm msg.path.chars)[k]? = some pair ∧
      u = update pair (lastLevel (msg.args.take (k + 1))) := by
  rw [messageCue, List.mem_map]
  constructor
  · rintro ⟨⟨pair, k⟩, hk, rfl⟩
    exact ⟨k, pair, List.mem_zipIdx_iff_getElem?.mp hk, rfl⟩
  · rintro ⟨k, pair, hk, rfl⟩
    exact ⟨(pair, k), List.mem_zipIdx_iff_getElem?.mpr hk, rfl⟩

lemma lastAt_visited {msg : Message} {k : ℕ} {pair : Pair}
    (hk : (visited pm msg.path.chars)[k]? = some pair) :
    lastAt (messageCue pm msg) pair = some (update pair (lastLevel (msg.args.take (k + 1)))) := by
  have hmem : update pair (lastLevel (msg.args.take (k + 1))) ∈ messageCue pm msg :=
    mem_messageCue.mpr ⟨k, pair, hk, rfl⟩
  have hunique := lastAt_unique hmem
  rw [update_key] at hunique
  apply hunique
  intro u' hu' hkey
  obtain ⟨k', pair', hk', rfl⟩ := mem_messageCue.mp hu'
  obtain rfl : pair' = pair := by simpa using hkey
  have hlt := (List.getElem?_eq_some_iff.mp hk).1
  rw [(List.getElem?_inj hlt (visited_nodup pm _)).mp (hk.trans hk'.symm)]

lemma lastAt_unvisited {msg : Message} {pair : Pair} (h : pair ∉ visited pm msg.path.chars) :
    lastAt (messageCue pm msg) pair = none := by
  apply lastAt_none
  intro u hu hkey
  obtain ⟨k, pair', hk, rfl⟩ := mem_messageCue.mp hu
  rw [update_key] at hkey
  exact h (hkey ▸ List.mem_of_getElem? hk)

/-- The handler plays the cue of the message on the slots. -/
lemma message_plays {msg : Message} {m : Memory} {p : Addr} {state : State} {M : Pair → Option Byte}
    (h : Placed m p msg.encode) (hM : Represents state.slots M) :
    ∃ state',
      handleOscMessage pm m (readerInitialize p (BitVec.ofNat 64 msg.encode.length))
          (BitVec.ofNat 64 msg.encode.length) state = .ok state' ∧
      Represents state'.slots (play M (messageCue pm msg)) := by
  obtain ⟨state', hrun, hwritten, hothers⟩ := message_written pm msg m p state h
  refine ⟨state', hrun, represents_iff.mpr fun pair => ?_⟩
  rw [play_apply]
  by_cases hpair : pair ∈ visited pm msg.path.chars
  · obtain ⟨k, hk⟩ := List.mem_iff_getElem?.mp hpair
    rw [hwritten k pair hk, lastAt_visited hk, Option.elim_some, update_value]
    cases lastLevel (msg.args.take (k + 1)) <;> rfl
  · rw [hothers pair hpair, lastAt_unvisited hpair]
    exact represents_iff.mp hM pair

/-- A packet that is a tree of well-formed messages. -/
inductive Score
  | message (msg : Message)
  | bundle (timetag : BitVec 64) (elems : List Score)

mutual

def Score.packet : Score → Packet
  | .message msg => .message msg.encode.tail
  | .bundle timetag elems => .bundle timetag (packets elems)

def packets : List Score → List Packet
  | [] => []
  | s :: ss => s.packet :: packets ss

end

mutual

/-- The messages from left to right, each with the timetag of its innermost bundle. -/
def Score.flatten (t : BitVec 64) : Score → List (BitVec 64 × Message)
  | .message msg => [(t, msg)]
  | .bundle timetag elems => flattenScores timetag elems

def flattenScores (t : BitVec 64) : List Score → List (BitVec 64 × Message)
  | [] => []
  | s :: ss => s.flatten t ++ flattenScores t ss

end

lemma encode_slash (msg : Message) : slash :: msg.encode.tail = msg.encode := rfl

mutual

lemma packet_flatten : ∀ (s : Score) (t : BitVec 64),
    s.packet.flatten t = (s.flatten t).map fun tm => (tm.1, tm.2.encode)
  | .message msg, t => by rw [Score.packet, Packet.flatten, Score.flatten, encode_slash]; rfl
  | .bundle timetag elems, t => by
      rw [Score.packet, Packet.flatten, Score.flatten, packets_flatten]

lemma packets_flatten : ∀ (ss : List Score) (t : BitVec 64),
    flattenElems t (packets ss) = (flattenScores t ss).map fun tm => (tm.1, tm.2.encode)
  | [], t => by rw [packets, flattenElems, flattenScores, List.map_nil]
  | s :: ss, t => by
      rw [packets, flattenElems, flattenScores, List.map_append, packet_flatten, packets_flatten]

end

section Spots
variable {m : Memory}

/-- The part of a buffer behind its first bytes. -/
lemma placed_right {xs ys : List Byte} {a : Addr} (h : Placed m a (xs ++ ys)) :
    Placed m (a + BitVec.ofNat 64 xs.length) ys := by
  have hbelow := h.below
  rw [List.length_append] at hbelow
  refine ⟨(holds_append.mp h.holds).2, ?_⟩
  rw [BitVec.toNat_add, BitVec.toNat_ofNat]
  omega

lemma placed_left {xs ys : List Byte} {a : Addr} (h : Placed m a (xs ++ ys)) : Placed m a xs := by
  have hbelow := h.below
  rw [List.length_append] at hbelow
  exact ⟨(holds_append.mp h.holds).1, by omega⟩

mutual

/-- Every message of a packet lies at its place in memory. -/
lemma place_placed : ∀ (p : Packet) (t : BitVec 64) (a : Addr), Placed m a p.encode →
    ∀ s ∈ p.place t a, Placed m s.addr s.bytes
  | .message rest, t, a, h, s, hs => by
      rw [Packet.place, List.mem_singleton] at hs
      rw [hs]
      rwa [Packet.encode] at h
  | .bundle timetag elems, t, a, h, s, hs => by
      rw [Packet.place] at hs
      rw [Packet.encode] at h
      exact placeElems_placed elems timetag (a + 8 + 8) (placed_right (placed_right h)) s hs

lemma placeElems_placed : ∀ (ps : List Packet) (t : BitVec 64) (a : Addr),
    Placed m a (encodeElems ps) → ∀ s ∈ placeElems t a ps, Placed m s.addr s.bytes
  | [], t, a, _, s, hs => by
      rw [placeElems] at hs
      cases hs
  | p :: ps, t, a, h, s, hs => by
      rw [encodeElems] at h
      rw [placeElems, List.mem_append] at hs
      have hbody := placed_right h
      rcases hs with hs | hs
      · exact place_placed p t (a + 4) (placed_left hbody) s hs
      · exact placeElems_placed ps t _ (placed_right hbody) s hs

end

end Spots

end Osc2FtdiDmx.MessageCues
