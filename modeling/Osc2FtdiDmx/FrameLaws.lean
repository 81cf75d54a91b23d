import Osc2FtdiDmx.BeatFrames
import Osc2FtdiDmx.DeskLaws

/-! Laws of the frames that the loop of `_beat` writes to the adapter, over all its runs:
what a channel depends on, what the network may do to the packets of a beat, and what the
schedule holds. -/
namespace Osc2FtdiDmx.FrameLaws
open BytesEndian OscMemory FuelledRuns PacketHandler BeatLoop ScheduleDrain PriorityLevels
open SlotRefinement LightingDesk DeskLaws MessageEncoding OscReader OscTree TreeWalk MessageLaw
open MessageCues BeatFrames

section Turns
variable (pm : List Byte → List Byte → Bool) (A : Allocator)

/-- What the desk takes in over the beats, from the call `fresh` of `malloc` on. -/
def deskTurns (fresh : ℕ) (beats : List Beat) : List (List (Option ℤ × Cue Pair Byte) × ℤ) :=
  turnsFrom pm A fresh (beats.map Beat.heard)

/-- What the loop of `_beat` writes, from slots that represent the levels `M`. -/
def written (fresh : ℕ) (M : Pair → Option Byte) (beats : List Beat) : List (List Byte) :=
  transmissions (beats.map Beat.line)
    ((Desk.frames 0 ⟨M, []⟩ (deskTurns pm A fresh beats)).map dmxBytes)

/-- A channel of the nth packet written. -/
def channelByte (sent : List (List Byte)) (n : ℕ) (c : Fin 512) : Option Byte :=
  sent[n]?.bind (·[c.val + 1]?)

/-- Turns at the same time whose cues mean the same to the pairs in question. -/
structure SameOn (P : Pair → Prop) [DecidablePred P]
    (turn turn' : List (Option ℤ × Cue Pair Byte) × ℤ) : Prop where
  cues : visible P turn.1 = visible P turn'.1
  now : turn.2 = turn'.2

lemma deskTurns_concat (fresh : ℕ) (beats : List Beat) (beat : Beat) :
    deskTurns pm A fresh (beats ++ [beat]) = deskTurns pm A fresh beats ++
      [(cuesFrom pm A (fresh + calls ((beats.map Beat.heard).flatMap (·.1))) beat.heard.1,
        beat.now.nanos)] := by
  rw [deskTurns, List.map_append, turnsFrom_append]
  rfl

lemma deskTurns_times (fresh : ℕ) (beats : List Beat) :
    (deskTurns pm A fresh beats).map Prod.snd = beats.map (·.now.nanos) := by
  induction beats generalizing fresh with
  | nil => rfl
  | cons b beats ih => exact congrArg (b.now.nanos :: ·) (ih _)

@[simp] lemma deskTurns_length (fresh : ℕ) (beats : List Beat) :
    (deskTurns pm A fresh beats).length = beats.length := by
  rw [deskTurns, turnsFrom_length, List.length_map]

end Turns

section Frames
variable {pm : List Byte → List Byte → Bool} {A : Allocator} {M M' : Pair → Option Byte}

lemma dmxBytes_channel (data : Fin 512 → Byte) (c : Fin 512) :
    (dmxBytes data)[c.val + 1]? = some (data c) := by
  rw [dmxBytes, List.getElem?_cons_succ, List.getElem?_ofFn, dif_pos c.isLt]

@[simp] lemma dmxBytes_length (data : Fin 512 → Byte) : (dmxBytes data).length = 513 := by
  rw [dmxBytes, List.length_cons, List.length_ofFn]

/-- What the adapter answers decides how many frames are written. -/
lemma transmissions_take (lines : List Line) : ∃ k, ∀ frames : List (Fin 512 → Byte),
    frames.length = lines.length →
      transmissions lines (frames.map dmxBytes) = (frames.map dmxBytes).take k := by
  induction lines with
  | nil => exact ⟨0, fun frames _ => by simp [transmissions]⟩
  | cons line lines ih =>
    obtain ⟨k, hk⟩ := ih
    by_cases hset : line.breakOn = 0 ∧ line.breakOff = 0
    · by_cases hall : line.written = 513
      · refine ⟨k + 1, fun frames hlen => ?_⟩
        obtain _ | ⟨frame, frames⟩ := frames
        · simp at hlen
        · have hrest := hk frames (by simpa using hlen)
          simp [transmissions, ftdiXmit, hset, hall, hrest]
      · refine ⟨1, fun frames hlen => ?_⟩
        obtain _ | ⟨frame, frames⟩ := frames
        · simp at hlen
        · simp [transmissions, ftdiXmit, hset, hall]
    · refine ⟨0, fun frames hlen => ?_⟩
      obtain _ | ⟨frame, frames⟩ := frames
      · simp at hlen
      · by_cases hon : line.breakOn = 0
        · simp [transmissions, ftdiXmit, hon, mt (And.intro hon) hset]
        · simp [transmissions, ftdiXmit, hon]

lemma frames_length (off : Byte) (desk : Desk Pair Byte ℤ)
    (turns : List (List (Option ℤ × Cue Pair Byte) × ℤ)) :
    (desk.frames off turns).length = turns.length := by
  induction turns generalizing desk with
  | nil => rfl
  | cons turn turns ih => simp [Desk.frames, ih]

lemma frames_nth (off : Byte) (desk : Desk Pair Byte ℤ)
    (turns : List (List (Option ℤ × Cue Pair Byte) × ℤ)) {n : ℕ} (hn : n < turns.length) :
    (desk.frames off turns)[n]? = some ((desk.after (turns.take (n + 1))).frame off) := by
  induction turns generalizing desk n with
  | nil => simp at hn
  | cons turn turns ih =>
    cases n with
    | zero => simp [Desk.frames, Desk.after]
    | succ n => simpa [Desk.frames, Desk.after] using ih _ (by simpa using hn)

/-- The frames written are those of the first beats; how many, the lines decide. -/
lemma written_take (pm : List Byte → List Byte → Bool) (A : Allocator) (lines : List Line) :
    ∃ k, ∀ fresh M, ∀ beats : List Beat, beats.map Beat.line = lines →
      written pm A fresh M beats =
        ((Desk.frames 0 ⟨M, []⟩ (deskTurns pm A fresh beats)).map dmxBytes).take k := by
  obtain ⟨k, hk⟩ := transmissions_take lines
  refine ⟨k, fun fresh M beats hlines => ?_⟩
  rw [written, hlines]
  apply hk
  rw [frames_length, ← hlines, deskTurns_length, List.length_map]

lemma written_channel {k fresh : ℕ} {beats : List Beat}
    (hk : written pm A fresh M beats =
      ((Desk.frames 0 ⟨M, []⟩ (deskTurns pm A fresh beats)).map dmxBytes).take k) (n : ℕ)
    (c : Fin 512) : channelByte (written pm A fresh M beats) n c =
      if n < min k beats.length then
        some ((Desk.after ⟨M, []⟩ ((deskTurns pm A fresh beats).take (n + 1))).frame 0 c)
      else none := by
  rw [channelByte, hk, List.getElem?_take]
  by_cases hlt : n < min k beats.length
  · have hframe := frames_nth 0 ⟨M, []⟩ (deskTurns pm A fresh beats) (n := n) (by simp; omega)
    rw [if_pos (by omega), if_pos hlt, List.getElem?_map, hframe]
    exact dmxBytes_channel _ c
  · rw [if_neg hlt]
    split_ifs with hn
    · rw [List.getElem?_eq_none (by simp [frames_length]; omega)]
      rfl
    · rfl

lemma writes (pm : List Byte → List Byte → Bool) (A : Allocator) {state : State} (fresh : ℕ)
    (hM : Represents state.slots M) (beats : List Beat) :
    ∃ app, Converges (fun fuel => beatLoop (A.host pm) fuel ⟨state, [], fresh⟩ (beats.map Beat.turn))
      (.ok (app, written pm A fresh M beats)) := by
  have hstart : Follows pm fresh ⟨M, []⟩ ⟨state, [], fresh⟩ := ⟨hM, .nil, rfl⟩
  obtain ⟨app, hrun⟩ := follows_loop (A := A) hstart beats
  exact ⟨app, hrun.converges (ok_ne_starve _)⟩

end Frames

/-- Two runs of the loop of `_beat` on packets that mean the same to some pairs, which are
with each pair all those of its channel with a higher priority. Both write equally many
frames, and every channel is the same in both as long as one of these pairs is set, or all
its pairs are among them: no other channel and no lower priority has any influence. -/
theorem levels_isolated (pm : List Byte → List Byte → Bool) (A : Allocator) (state state' : State)
    (fresh fresh' : ℕ) (M M' : Pair → Option Byte) (hM : Represents state.slots M)
    (hM' : Represents state'.slots M') (P : Pair → Prop) [DecidablePred P]
    (hup : ∀ c p q, p ≤ q → P (c, p) → P (c, q)) (hstart : ∀ k, P k → M k = M' k)
    (beats beats' : List Beat) (hlines : beats'.map Beat.line = beats.map Beat.line)
    (hsame : List.Forall₂ (SameOn P) (deskTurns pm A fresh beats) (deskTurns pm A fresh' beats')) :
    ∃ app app' sent sent',
      Converges (fun fuel => beatLoop (A.host pm) fuel ⟨state, [], fresh⟩ (beats.map Beat.turn))
        (.ok (app, sent)) ∧
      Converges (fun fuel => beatLoop (A.host pm) fuel ⟨state', [], fresh'⟩ (beats'.map Beat.turn))
        (.ok (app', sent')) ∧
      sent.length = sent'.length ∧
      ∀ n c, ((∀ p, P (c, p)) ∨ ∃ p, P (c, p) ∧ ((Desk.after ⟨M, []⟩
          ((deskTurns pm A fresh beats).take (n + 1))).levels (c, p)).isSome) →
        channelByte sent n c = channelByte sent' n c := by
  obtain ⟨app, hrun⟩ := writes pm A fresh hM beats
  obtain ⟨app', hrun'⟩ := writes pm A fresh' hM' beats'
  have hlen : beats.length = beats'.length := by simpa using hsame.length_eq
  obtain ⟨k, hk⟩ := written_take pm A (beats.map Beat.line)
  have hleft := hk fresh M beats rfl
  have hright := hk fresh' M' beats' hlines
  refine ⟨app, app', _, _, hrun, hrun', ?_, fun n c hset => ?_⟩
  · rw [hleft, hright]
    simp [frames_length, hlen]
  · rw [written_channel hleft, written_channel hright, hlen]
    have hstart' : Agree P (⟨M, []⟩ : Desk Pair Byte ℤ) ⟨M', []⟩ := ⟨hstart, rfl⟩
    have hturns := hsame.imp fun _ _ h => And.intro h.cues h.now
    have hagree := hstart'.after (List.forall₂_take (n + 1) hturns)
    congr 2
    exact topValue_congr (fun p hp => hagree.levels (c, p) hp) (hup c) hset 0

/-- The channels 1 to 3 that the message visits say nothing about the channel 4. -/
theorem levels_isolated_threeChannels :
    ∃ app app' sent sent',
      Converges (fun fuel => beatLoop (plainAllocator.host rangeMatch) fuel ⟨usedState, [], 0⟩
        (twoBeats.map Beat.turn)) (.ok (app, sent)) ∧
      Converges (fun fuel => beatLoop (plainAllocator.host rangeMatch) fuel ⟨usedState, [], 0⟩
        ((twoBeats.map fun b => { b with inbox := [] }).map Beat.turn)) (.ok (app', sent')) ∧
      ∀ n, channelByte sent n 4 = channelByte sent' n 4 := by
  have hsame : List.Forall₂ (SameOn fun k => k.1 = 4) (deskTurns rangeMatch plainAllocator 0 twoBeats)
      (deskTurns rangeMatch plainAllocator 0 (twoBeats.map fun b => { b with inbox := [] })) :=
    .cons ⟨by decide +kernel, rfl⟩ (.cons ⟨rfl, rfl⟩ .nil)
  obtain ⟨app, app', sent, sent', hrun, hrun', -, hchannel⟩ := levels_isolated rangeMatch
    plainAllocator usedState usedState 0 0 _ _ represents_zero represents_zero (fun k => k.1 = 4)
    (fun _ _ _ _ h => h) (fun _ _ => rfl) twoBeats (twoBeats.map fun b => { b with inbox := [] })
    rfl hsame
  exact ⟨app, app', sent, sent', hrun, hrun', fun n => hchannel n 4 (.inl fun _ => rfl)⟩

section Network
variable (pm : List Byte → List Byte → Bool)

/-- The pairs that the packet updates at once. -/
def addressed (d : Delivery) : List Pair :=
  ((d.score.flatten oscImmediate).filter (·.1 = oscImmediate)).flatMap fun tm =>
    visited pm tm.2.path.chars

/-- No message of the packet waits. -/
def Immediate (d : Delivery) : Prop := ∀ tm ∈ d.score.flatten oscImmediate, tm.1 = oscImmediate

/-- What the network may do to the packets of a beat: two that address different pairs, of
which one is immediate, change places, and an immediate one comes in twice. -/
inductive Rearranged : List Delivery → List Delivery → Prop
  | refl (ds : List Delivery) : Rearranged ds ds
  | swap (xs : List Delivery) (d d' : Delivery) (ys : List Delivery)
      (hpairs : ∀ pair ∈ addressed pm d, pair ∉ addressed pm d')
      (himmediate : Immediate d ∨ Immediate d') :
      Rearranged (xs ++ d :: d' :: ys) (xs ++ d' :: d :: ys)
  | again (xs : List Delivery) (d : Delivery) (ys : List Delivery) (himmediate : Immediate d) :
      Rearranged (xs ++ d :: ys) (xs ++ d :: d :: ys)
  | trans {ds ds' ds'' : List Delivery} :
      Rearranged ds ds' → Rearranged ds' ds'' → Rearranged ds ds''

variable {pm} {A : Allocator} {d d' : Delivery}

/-- The cues of the messages of a packet. -/
def deliveryCues (pm : List Byte → List Byte → Bool) (A : Allocator) (n : ℕ) (d : Delivery) :
    List (Option ℤ × Cue Pair Byte) := cuesFrom pm A n (d.score.flatten oscImmediate)

lemma mem_cuesFrom {n : ℕ} {msgs : List (BitVec 64 × Message)} {cue : Option ℤ × Cue Pair Byte}
    (h : cue ∈ cuesFrom pm A n msgs) : ∃ tm ∈ msgs, ∃ k, cueOf pm A k tm = some cue := by
  induction msgs generalizing n with
  | nil => simp [cuesFrom] at h
  | cons tm msgs ih =>
    rw [cuesFrom, List.mem_append] at h
    obtain h | h := h
    · exact ⟨tm, List.mem_cons_self, n, by simpa using h⟩
    · obtain ⟨tm', htm, k, hk⟩ := ih h
      exact ⟨tm', List.mem_cons_of_mem _ htm, k, hk⟩

/-- A packet that does not wait asks for no memory. -/
lemma calls_immediate (h : Immediate d) : calls (d.score.flatten oscImmediate) = 0 := by
  rw [calls, List.countP_eq_zero]
  intro tm htm
  simpa using h tm htm

lemma cuesFrom_immediate {msgs : List (BitVec 64 × Message)} (h : ∀ tm ∈ msgs, tm.1 = oscImmediate)
    (n k : ℕ) : cuesFrom pm A n msgs = cuesFrom pm A k msgs := by
  induction msgs generalizing n k with
  | nil => rfl
  | cons tm msgs ih =>
    obtain ⟨hnow, hrest⟩ := List.forall_mem_cons.mp h
    rw [cuesFrom, cuesFrom, cueOf, cueOf, if_pos hnow, if_pos hnow, ih hrest]

lemma delayed_immediate (h : Immediate d) (n : ℕ) : delayed (deliveryCues pm A n d) = [] := by
  rw [delayed, List.filterMap_eq_nil_iff]
  intro cue hcue
  obtain ⟨tm, htm, k, hcue⟩ := mem_cuesFrom hcue
  rw [cueOf, if_pos (h tm htm)] at hcue
  cases hcue
  rfl

lemma atOnce_addressed {n : ℕ} {u : Update Pair Byte} (hu : u ∈ atOnce (deliveryCues pm A n d)) :
    u.key ∈ addressed pm d := by
  rw [atOnce, List.mem_flatMap] at hu
  obtain ⟨cue, hcue, hu⟩ := hu
  obtain ⟨tm, htm, k, hcue⟩ := mem_cuesFrom hcue
  rw [cueOf] at hcue
  split_ifs at hcue with hnow
  · cases hcue
    obtain ⟨k, pair, hk, rfl⟩ := mem_messageCue.mp (by simpa using hu)
    rw [update_key, addressed, List.mem_flatMap]
    exact ⟨tm, by simpa using ⟨htm, hnow⟩, List.mem_of_getElem? hk⟩
  · cases hcue
    simp at hu

/-- Two packets change places, the first of them behind the call `n` of `malloc`. -/
lemma takeAll_exchange (hpairs : ∀ pair ∈ addressed pm d, pair ∉ addressed pm d')
    (himmediate : Immediate d ∨ Immediate d') (n : ℕ) (desk : Desk Pair Byte ℤ) :
    (desk.takeAll (deliveryCues pm A n d)).takeAll
        (deliveryCues pm A (n + calls (d.score.flatten oscImmediate)) d') =
      (desk.takeAll (deliveryCues pm A n d')).takeAll
        (deliveryCues pm A (n + calls (d'.score.flatten oscImmediate)) d) := by
  have hkeys : ∀ k j, ∀ u ∈ atOnce (deliveryCues pm A k d), ∀ u' ∈ atOnce (deliveryCues pm A j d'),
      u.key ≠ u'.key := fun _ _ u hu u' hu' hkey =>
    hpairs u.key (atOnce_addressed hu) (hkey ▸ atOnce_addressed hu')
  obtain hnow | hnow := himmediate
  · have hsame : deliveryCues pm A (n + calls (d'.score.flatten oscImmediate)) d =
        deliveryCues pm A n d := cuesFrom_immediate hnow _ _
    rw [calls_immediate hnow, Nat.add_zero, hsame]
    exact takeAll_swap desk (hkeys n n) (Or.inl (delayed_immediate hnow n))
  · have hsame : deliveryCues pm A (n + calls (d.score.flatten oscImmediate)) d' =
        deliveryCues pm A n d' := cuesFrom_immediate hnow _ _
    rw [calls_immediate hnow, Nat.add_zero, hsame]
    exact takeAll_swap desk (hkeys n n) (Or.inr (delayed_immediate hnow n))

/-- The messages of the packets of a beat. -/
def inboxMessages (ds : List Delivery) : List (BitVec 64 × Message) :=
  scoreMessages (ds.map Delivery.score)

lemma inboxMessages_append (ds ds' : List Delivery) :
    inboxMessages (ds ++ ds') = inboxMessages ds ++ inboxMessages ds' := by
  simp [inboxMessages, scoreMessages]

lemma inboxMessages_cons (d : Delivery) (ds : List Delivery) :
    inboxMessages (d :: ds) = d.score.flatten oscImmediate ++ inboxMessages ds := rfl

lemma rearranged_calls {ds ds' : List Delivery} (h : Rearranged pm ds ds') :
    calls (inboxMessages ds) = calls (inboxMessages ds') := by
  induction h with
  | refl ds => rfl
  | swap xs d d' ys hpairs himmediate =>
    simp only [inboxMessages_append, inboxMessages_cons, calls_append]
    omega
  | again xs d ys himmediate =>
    simp only [inboxMessages_append, inboxMessages_cons, calls_append, calls_immediate himmediate]
    omega
  | trans _ _ ih ih' => exact ih.trans ih'

/-- The desk does not tell the two apart. -/
lemma rearranged_takeAll {ds ds' : List Delivery} (h : Rearranged pm ds ds') (n : ℕ)
    (desk : Desk Pair Byte ℤ) :
    desk.takeAll (cuesFrom pm A n (inboxMessages ds)) =
      desk.takeAll (cuesFrom pm A n (inboxMessages ds')) := by
  have hparts (desk : Desk Pair Byte ℤ) (cues cues' : List (Option ℤ × Cue Pair Byte)) :
      desk.takeAll (cues ++ cues') = (desk.takeAll cues).takeAll cues' := List.foldl_append
  induction h with
  | refl ds => rfl
  | swap xs d d' ys hpairs himmediate =>
    have hswap := takeAll_exchange (A := A) hpairs himmediate (n + calls (inboxMessages xs))
      (desk.takeAll (cuesFrom pm A n (inboxMessages xs)))
    have hcalls := Nat.add_right_comm (n + calls (inboxMessages xs))
      (calls (d.score.flatten oscImmediate)) (calls (d'.score.flatten oscImmediate))
    rw [deliveryCues, deliveryCues, deliveryCues, deliveryCues] at hswap
    simp only [inboxMessages_append, inboxMessages_cons, cuesFrom_append, hparts, hswap, hcalls]
  | again xs d ys himmediate =>
    have hsame := takeAll_again (desk.takeAll (cuesFrom pm A n (inboxMessages xs)))
      (@delayed_immediate pm A d himmediate (n + calls (inboxMessages xs)))
    rw [deliveryCues] at hsame
    simp only [inboxMessages_append, inboxMessages_cons, cuesFrom_append, hparts,
      calls_immediate himmediate, Nat.add_zero, hsame]
  | trans _ _ ih ih' => exact ih.trans ih'

/-- The same beat, with packets that the network rearranged. -/
structure SameTraffic (pm : List Byte → List Byte → Bool) (b b' : Beat) : Prop where
  inbox : Rearranged pm b.inbox b'.inbox
  now : b.now = b'.now
  line : b.line = b'.line

lemma traffic_lines {beats beats' : List Beat} (h : List.Forall₂ (SameTraffic pm) beats beats') :
    beats'.map Beat.line = beats.map Beat.line := by
  induction h with
  | nil => rfl
  | cons h _ ih => simp [h.line, ih]

lemma traffic_frames {beats beats' : List Beat} (h : List.Forall₂ (SameTraffic pm) beats beats')
    (n : ℕ) (desk : Desk Pair Byte ℤ) : desk.frames 0 (deskTurns pm A n beats') =
      desk.frames 0 (deskTurns pm A n beats) := by
  induction h generalizing n desk with
  | nil => rfl
  | @cons b b' beats beats' h _ ih =>
    have htake := rearranged_takeAll (A := A) h.inbox n desk
    have hcalls := rearranged_calls h.inbox
    have hrest := ih (n + calls (inboxMessages b.inbox))
      ((desk.takeAll (cuesFrom pm A n (inboxMessages b.inbox))).advance b.now.nanos)
    have hturn (b : Beat) (beats : List Beat) : deskTurns pm A n (b :: beats) =
        (cuesFrom pm A n (inboxMessages b.inbox), b.now.nanos) ::
          deskTurns pm A (n + calls (inboxMessages b.inbox)) beats := rfl
    rw [hturn, hturn, Desk.frames, Desk.frames, ← htake, ← hcalls, ← h.now, hrest]

end Network

/-- Packets of a beat that the network rearranges lead to the same bytes on the line, in
this beat and in all that follow. -/
theorem network_tolerated (pm : List Byte → List Byte → Bool) (A : Allocator) (state : State)
    (fresh : ℕ) (M : Pair → Option Byte) (hM : Represents state.slots M) (beats beats' : List Beat)
    (htraffic : List.Forall₂ (SameTraffic pm) beats beats') :
    ∃ app app' sent,
      Converges (fun fuel => beatLoop (A.host pm) fuel ⟨state, [], fresh⟩ (beats.map Beat.turn))
        (.ok (app, sent)) ∧
      Converges (fun fuel => beatLoop (A.host pm) fuel ⟨state, [], fresh⟩ (beats'.map Beat.turn))
        (.ok (app', sent)) := by
  obtain ⟨app, hrun⟩ := writes pm A fresh hM beats
  obtain ⟨app', hrun'⟩ := writes pm A fresh hM beats'
  refine ⟨app, app', _, hrun, ?_⟩
  rwa [written, traffic_lines htraffic, traffic_frames htraffic] at hrun'

def deliver (score : Score) (h : score.packet.encode.length < 2 ^ 31) : Delivery where
  score
  mem := image 0x1000 score.packet.encode
  buf := 0x1000
  placed := placed_image (by
    have hbase : (0x1000 : Addr).toNat = 4096 := rfl
    omega)
  size := h

/-- `/dmx/9/7` with the argument 4. -/
def ninthChannel : Message where
  path := ⟨dmxName ++ [slash, 0x39, slash, 0x37], by decide⟩
  args := [.int32 4]

def ninthDelivery : Delivery := deliver (.message ninthChannel) (by decide)

lemma ninthChannel_visited : visited rangeMatch ninthChannel.path.chars = [(9, 7)] := by
  decide +kernel

def busyBeat (inbox : List Delivery) : Beat := ⟨inbox, ⟨1, 0⟩, ⟨0, 0, 513⟩⟩

/-- The messages of the first beat change places, and one of them comes in twice. -/
theorem network_tolerated_swapped :
    ∃ app app' sent,
      Converges (fun fuel => beatLoop (plainAllocator.host rangeMatch) fuel ⟨usedState, [], 0⟩
        ([busyBeat [threeDelivery, ninthDelivery], busyBeat []].map Beat.turn)) (.ok (app, sent)) ∧
      Converges (fun fuel => beatLoop (plainAllocator.host rangeMatch) fuel ⟨usedState, [], 0⟩
        ([busyBeat [ninthDelivery, threeDelivery, threeDelivery], busyBeat []].map Beat.turn))
        (.ok (app', sent)) := by
  have hthree : Immediate threeDelivery := by
    simp [Immediate, threeDelivery, Score.flatten]
  have hfirst : addressed rangeMatch threeDelivery = [(1, 7), (2, 7), (3, 7)] := by
    simpa [addressed, threeDelivery, Score.flatten] using threeChannels_visited
  have hnine : addressed rangeMatch ninthDelivery = [(9, 7)] := by
    simpa [addressed, ninthDelivery, deliver, Score.flatten] using ninthChannel_visited
  have hpairs : ∀ pair ∈ addressed rangeMatch threeDelivery,
      pair ∉ addressed rangeMatch ninthDelivery := by
    rw [hfirst, hnine]
    simp
  have hswap : Rearranged rangeMatch [threeDelivery, ninthDelivery] [ninthDelivery, threeDelivery] :=
    .swap [] threeDelivery ninthDelivery [] hpairs (Or.inl hthree)
  have htwice : Rearranged rangeMatch [ninthDelivery, threeDelivery]
      [ninthDelivery, threeDelivery, threeDelivery] := .again [ninthDelivery] threeDelivery [] hthree
  exact network_tolerated rangeMatch plainAllocator usedState 0 _ represents_zero
    [busyBeat [threeDelivery, ninthDelivery], busyBeat []]
    [busyBeat [ninthDelivery, threeDelivery, threeDelivery], busyBeat []]
    (.cons ⟨hswap.trans htwice, rfl, rfl⟩ (.cons ⟨.refl [], rfl, rfl⟩ .nil))

section Schedule
variable {pm : List Byte → List Byte → Bool} {A : Allocator}

/-- Libftdi takes the frame. -/
structure Line.Up (line : Line) : Prop where
  breakOn : line.breakOn = 0
  breakOff : line.breakOff = 0
  written : line.written = 513

/-- Without a failure the loop follows the desk to the end. -/
lemma follows_up {n : ℕ} {desk : Desk Pair Byte ℤ} {app : App State} (h : Follows pm n desk app)
    (beats : List Beat) (hup : ∀ b ∈ beats, Line.Up b.line) :
    ∃ app' sent, Settles (fun fuel => beatLoop (A.host pm) fuel app (beats.map Beat.turn))
      (.ok (app', sent)) ∧
      ∃ k, Follows pm k (desk.after (deskTurns pm A n beats)) app' := by
  induction beats generalizing n desk app with
  | nil => exact ⟨app, [], .const _, n, h⟩
  | cons b beats ih =>
    obtain ⟨hthis, hrest⟩ := List.forall_mem_cons.mp hup
    obtain ⟨mid, hfollows, hturn⟩ := follows_turn (A := A) h b
    obtain ⟨app', sent, hrun, hend⟩ := ih hfollows hrest
    have hxmit (data : Fin 512 → Byte) :
        ftdiXmit b.line (dmxBytes data) = (true, [dmxBytes data]) := by
      simp [ftdiXmit, hthis.breakOn, hthis.breakOff, hthis.written]
    rw [hxmit] at hturn
    exact ⟨app', _, hturn.bind (hrun.bind (.const _)), hend⟩

end Schedule

/-- As long as the adapter works and the times of the beats do not run back, the schedule
holds after every beat, of all timed messages so far in the order they came in, those from
the first one on that is not due yet: each message is played by the first beat at which
neither itself nor one that came in before it has to wait any longer. -/
theorem schedule_holds (pm : List Byte → List Byte → Bool) (A : Allocator) (state : State)
    (fresh : ℕ) (M : Pair → Option Byte) (hM : Represents state.slots M) (beats : List Beat)
    (beat : Beat) (hclock : (beats ++ [beat]).Pairwise (·.now.nanos ≤ ·.now.nanos))
    (hup : ∀ b ∈ beats ++ [beat], Line.Up b.line) :
    ∃ app sent, Converges (fun fuel => beatLoop (A.host pm) fuel ⟨state, [], fresh⟩
        ((beats ++ [beat]).map Beat.turn)) (.ok (app, sent)) ∧
      List.Forall₂ (Element pm) app.list
        (((deskTurns pm A fresh (beats ++ [beat])).flatMap fun turn => delayed turn.1).dropWhile
          (·.1 ≤ beat.now.nanos)) := by
  have hstart : Follows pm fresh ⟨M, []⟩ ⟨state, [], fresh⟩ := ⟨hM, .nil, rfl⟩
  obtain ⟨app, sent, hrun, k, hend⟩ := follows_up (A := A) hstart (beats ++ [beat]) hup
  refine ⟨app, sent, hrun.converges (ok_ne_starve _), ?_⟩
  have hline := hend.list
  have hturns := deskTurns_concat pm A fresh beats beat
  have htimes : (deskTurns pm A fresh (beats ++ [beat])).map Prod.snd =
      (beats ++ [beat]).map (·.now.nanos) := deskTurns_times pm A _ _
  rw [hturns, after_waiting] at hline
  · rw [hturns]
    exact hline
  · rw [← hturns, ← List.pairwise_map (f := Prod.snd) (R := (· ≤ ·)), htimes, List.pairwise_map]
    exact hclock

/-- A message that is due after 10 seconds, and one that is due after 5. -/
def lateBundle : Score := .bundle ((jan1970 + 10) <<< 32) [.message threeChannels]

def soonBundle : Score := .bundle ((jan1970 + 5) <<< 32) [.message threeChannels]

/-- At the beat after 7 seconds the first holds up the second. -/
theorem schedule_holds_two : ∃ app sent,
    Converges (fun fuel => beatLoop (plainAllocator.host rangeMatch) fuel ⟨usedState, [], 0⟩
      [Beat.turn ⟨[deliver lateBundle (by decide), deliver soonBundle (by decide)], ⟨7, 0⟩,
        ⟨0, 0, 513⟩⟩]) (.ok (app, sent)) ∧ app.list.length = 2 := by
  obtain ⟨app, sent, hrun, hlist⟩ := schedule_holds rangeMatch plainAllocator usedState 0 _
    represents_zero [] ⟨[deliver lateBundle (by decide), deliver soonBundle (by decide)], ⟨7, 0⟩,
      ⟨0, 0, 513⟩⟩ (by simp) (by simpa using ⟨rfl, rfl, rfl⟩)
  refine ⟨app, sent, hrun, ?_⟩
  rw [hlist.length_eq]
  decide +kernel

end Osc2FtdiDmx.FrameLaws
