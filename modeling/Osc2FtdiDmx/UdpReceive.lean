import Osc2FtdiDmx.RingHandoff

/-! The receive loop of `_lv2_osc_stream_run_udp` on the ring. `recvfrom` stores as much
of a datagram as the granted maximum allows, byte by byte, and drops the rest. -/
namespace Osc2FtdiDmx.UdpReceive
open BytesEndian CircularBuffer VarchunkRing VarchunkThreads TransitionRuns RingInvariant
open RingRuns RingHandoff

/-- `LV2_OSC_STREAM_REQBUF`. -/
def reqbuf : Size := 1024

/-- The ring with the datagram that `recvfrom` is storing and the number of its bytes
stored so far; `datagrams` lists those that a chunk was committed for. -/
structure Udp where
  ring : Machine
  pending : Option (List Byte × ℕ)
  datagrams : List (List Byte)

def udpStart (buf : ℕ → Byte) : Udp := ⟨start buf, none, []⟩

/-- The number of bytes that `recvfrom` stores and returns. -/
def received (grant : Grant) (datagram : List Byte) : ℕ := min grant.rsvd.toNat datagram.length

inductive UdpAct
  | request
  | receive (datagram : List Byte)
  | store
  | commit
  | ring (a : Act)

/-- The steps that are not the receive loop's own. -/
def Background : Act → Prop
  | .request _ | .store _ _ | .commit _ => False
  | _ => True

instance : DecidablePred Background := fun a =>
  match a with
  | .request _ | .store _ _ | .commit _ => inferInstanceAs (Decidable False)
  | .putByte | .publish | .readRequest | .checkGap | .skipGap | .readSize | .readByte
  | .readDone | .readAdvance | .release => inferInstanceAs (Decidable True)

/-- One step of the loop or of the rest of the ring. A result of -1 or 0 ends the loop,
and the next call begins with another request. -/
def udpAct (u : Udp) : UdpAct → Option Udp
  | .request =>
      if u.pending = none then (act u.ring (.request reqbuf)).map fun ring => { u with ring }
      else none
  | .receive datagram =>
      match u.ring.producer, u.pending with
      | .granted _ _ _, none =>
          if datagram = [] then none else some { u with pending := some (datagram, 0) }
      | _, _ => none
  | .store =>
      match u.ring.producer, u.pending with
      | .granted _ _ grant, some (datagram, i) =>
          if i < received grant datagram then
            (act u.ring (.store i (datagram.getD i 0))).map fun ring =>
              { u with ring, pending := some (datagram, i + 1) }
          else none
      | _, _ => none
  | .commit =>
      match u.ring.producer, u.pending with
      | .granted _ _ grant, some (datagram, i) =>
          if i = received grant datagram then
            (act u.ring (.commit (BitVec.ofNat 64 i))).map fun ring =>
              { ring, pending := none, datagrams := u.datagrams ++ [datagram] }
          else none
      | _, _ => none
  | .ring a => if Background a then (act u.ring a).map fun ring => { u with ring } else none

/-- The chunk that is committed and not yet published. -/
def inFlight : Producer → List (List Byte)
  | .publishing _ _ entry => [entry.data]
  | _ => []

/-- The chunks committed so far. -/
def chunks (s : Machine) : List (List Byte) := s.committed ++ inFlight s.producer

/-- A datagram that is received fits, with header and padding, in the room granted. -/
def FitsDatagram (u : Udp) : UdpAct → Prop
  | .receive datagram => FitsGrant u.ring datagram.length
  | _ => True

instance (u : Udp) (a : UdpAct) : Decidable (FitsDatagram u a) :=
  match a with
  | .receive _ => inferInstanceAs (Decidable (WhenGranted _ _))
  | .request | .store | .commit | .ring _ => inferInstanceAs (Decidable True)

section Frame
variable {s s' : Machine} {a : Act}

/-- Publishing a chunk moves it, every other step but a commit leaves the chunks alone. -/
lemma chunks_step (ha : ∀ written, a ≠ .commit written) (hstep : act s a = some s') :
    chunks s' = chunks s := by
  cases a
  case commit written => exact absurd rfl (ha written)
  case request minimum =>
    cases hp : s.producer <;> cases hg : writeRequestMax s.head s.tail minimum <;>
      simp only [act, hp, hg] at hstep <;> cases hstep <;> simp [chunks, inFlight, hp]
  case store i b =>
    obtain ⟨minimum, tail, grant, hp, rfl⟩ := act_store hstep
    simp [chunks, inFlight, hp]
  case putByte =>
    obtain ⟨store, stores, newHead, entry, hp, rfl⟩ := act_putByte hstep
    simp [chunks, inFlight, hp]
  case publish =>
    obtain ⟨newHead, entry, hp, rfl⟩ := act_publish hstep
    simp [chunks, inFlight, hp]
  all_goals
    have hsame := act_reader hstep trivial
    rw [chunks, chunks, hsame.committed, hsame.producer]

/-- The rest of the ring stores nothing while a grant is out. -/
lemma background_step (ha : Background a) (hstep : act s a = some s') {minimum tail : Size}
    {grant : Grant} (hp : s.producer = .granted minimum tail grant) :
    s'.producer = s.producer ∧ s'.buf = s.buf := by
  cases a
  case request | store | commit => exact ha.elim
  case putByte | publish =>
    simp only [act, hp] at hstep
    cases hstep
  all_goals
    have hsame := act_reader hstep trivial
    exact ⟨hsame.producer, hsame.buf⟩

lemma fitsGrant_step {n : ℕ} (h : FitsGrant s n) (ha : ∀ minimum, a ≠ .request minimum)
    (hstep : act s a = some s') : FitsGrant s' n :=
  whenGranted_step (P := fun head minimum tail _ =>
    8 + pad8 n ≤ room head.toNat tail.toNat (padded minimum)) h ha hstep

lemma fitsGrant_mono {n k : ℕ} (h : FitsGrant s n) (hk : k ≤ n) : FitsGrant s k := by
  have hpad := pad8_mono hk
  cases hp : s.producer <;> simp only [FitsGrant, WhenGranted, hp] at h ⊢
  omega

/-- The maximum that a grant reports covers the room behind it. -/
lemma room_le_rsvd {h t p : ℕ} {grant : Grant} (hshape : GrantShape h t p grant) :
    room h t p ≤ grant.rsvd.toNat := by
  rw [room]
  cases hshape with
  | first hstart hgapd ht0 hle hfit hrsvd => rw [if_pos ⟨ht0, hle⟩, if_pos hfit, hrsvd]
  | rest hstart hgapd ht0 hp hrsvd =>
    rw [if_neg (fun h => h.1 ht0), if_pos ht0]
    omega
  | upTo hstart hgapd hlt hp hrsvd =>
    rw [if_neg (by omega), if_neg (by omega)]
    omega
  | second hstart hgapd ht0 hle hsmall hp hrsvd =>
    rw [if_pos ⟨ht0, hle⟩, if_neg (by omega)]
    omega

/-- The room of the grant that the producer has is within its maximum. -/
def Covers (s : Machine) : Prop :=
  WhenGranted (fun minimum tail grant =>
    room s.head.toNat tail.toNat (padded minimum) ≤ grant.rsvd.toNat) s.producer

lemma covers_step (hs : Sound s) (h : Covers s) (hstep : act s a = some s') : Covers s' := by
  by_cases ha : ∃ minimum, a = .request minimum
  · obtain ⟨minimum, rfl⟩ := ha
    obtain ⟨t, hinv⟩ := hs
    rcases act_request hstep with ⟨grant, hgrant, rfl⟩ | rfl
    · exact room_le_rsvd (hinv.shape hgrant)
    · trivial
  · exact whenGranted_step (P := fun head minimum tail grant =>
      room head.toNat tail.toNat (padded minimum) ≤ grant.rsvd.toNat) h
      (fun minimum heq => ha ⟨minimum, heq⟩) hstep

end Frame

section Steps
variable {u u' : Udp} {datagram : List Byte} {i : ℕ}

/-- A front part of the datagram lies behind the header of the chunk to come. -/
def Stored (u : Udp) : Prop := ∀ datagram i, u.pending = some (datagram, i) →
  ∃ minimum tail grant, u.ring.producer = .granted minimum tail grant ∧
    i ≤ received grant datagram ∧
    readRun u.ring.buf (grant.start.toNat + 8) i = datagram.take i

lemma readRun_store {buf : ℕ → Byte} {off : ℕ} (h : readRun buf off i = datagram.take i)
    (hi : i < datagram.length) :
    readRun (Function.update buf (off + i) (datagram.getD i 0)) off (i + 1) =
      datagram.take (i + 1) := by
  have hfront : readRun (Function.update buf (off + i) (datagram.getD i 0)) off i =
      readRun buf off i := readRun_congr fun j hj => Function.update_of_ne (by omega) _ _
  rw [readRun_add, hfront, h, List.take_succ_eq_append_getElem hi]
  simp [readRun, hi]

lemma udp_request (hstep : udpAct u .request = some u') : u.pending = none ∧
    ∃ ring, act u.ring (.request reqbuf) = some ring ∧ u' = { u with ring } := by
  simp only [udpAct, Option.ite_none_right_eq_some, Option.map_eq_some_iff] at hstep
  obtain ⟨hnone, ring, hring, rfl⟩ := hstep
  exact ⟨hnone, ring, hring, rfl⟩

lemma udp_receive (hstep : udpAct u (.receive datagram) = some u') :
    (∃ minimum tail grant, u.ring.producer = .granted minimum tail grant) ∧
      u' = { u with pending := some (datagram, 0) } := by
  cases hp : u.ring.producer <;> cases hq : u.pending <;>
    simp only [udpAct, hp, hq, Option.ite_none_left_eq_some, Option.some.injEq,
      reduceCtorEq] at hstep
  exact ⟨⟨_, _, _, rfl⟩, hstep.2.symm⟩

lemma udp_store (hstep : udpAct u .store = some u') : ∃ minimum tail grant datagram i ring,
    u.ring.producer = .granted minimum tail grant ∧ u.pending = some (datagram, i) ∧
      i < received grant datagram ∧ act u.ring (.store i (datagram.getD i 0)) = some ring ∧
      u' = { u with ring, pending := some (datagram, i + 1) } := by
  rcases hp : u.ring.producer with _ | ⟨minimum, tail, grant⟩ | _ <;>
    rcases hq : u.pending with _ | ⟨datagram, i⟩ <;>
    simp only [udpAct, hp, hq, Option.ite_none_right_eq_some, Option.map_eq_some_iff,
      reduceCtorEq] at hstep
  obtain ⟨hlt, ring, hring, rfl⟩ := hstep
  exact ⟨minimum, tail, grant, datagram, i, ring, rfl, rfl, hlt, hring, rfl⟩

lemma udp_commit (hstep : udpAct u .commit = some u') : ∃ minimum tail grant datagram ring,
    u.ring.producer = .granted minimum tail grant ∧
      u.pending = some (datagram, received grant datagram) ∧
      act u.ring (.commit (BitVec.ofNat 64 (received grant datagram))) = some ring ∧
      u' = { ring, pending := none, datagrams := u.datagrams ++ [datagram] } := by
  rcases hp : u.ring.producer with _ | ⟨minimum, tail, grant⟩ | _ <;>
    rcases hq : u.pending with _ | ⟨datagram, i⟩ <;>
    simp only [udpAct, hp, hq, Option.ite_none_right_eq_some, Option.map_eq_some_iff,
      reduceCtorEq] at hstep
  obtain ⟨rfl, ring, hring, rfl⟩ := hstep
  exact ⟨minimum, tail, grant, datagram, ring, rfl, rfl, hring, rfl⟩

lemma udp_ring {a : Act} (hstep : udpAct u (.ring a) = some u') : Background a ∧
    ∃ ring, act u.ring a = some ring ∧ u' = { u with ring } := by
  simp only [udpAct, Option.ite_none_right_eq_some, Option.map_eq_some_iff] at hstep
  obtain ⟨ha, ring, hring, rfl⟩ := hstep
  exact ⟨ha, ring, hring, rfl⟩

lemma stored_step {a : UdpAct} (h : Stored u) (hstep : udpAct u a = some u') : Stored u' := by
  intro datagram i hi
  cases a with
  | request =>
    obtain ⟨hnone, ring, -, rfl⟩ := udp_request hstep
    cases hnone.symm.trans hi
  | receive datagram =>
    obtain ⟨⟨minimum, tail, grant, hp⟩, rfl⟩ := udp_receive hstep
    cases hi
    exact ⟨minimum, tail, grant, hp, Nat.zero_le _, rfl⟩
  | store =>
    obtain ⟨minimum, tail, grant, datagram, i, ring, hp, hq, hlt, hring, rfl⟩ := udp_store hstep
    cases hi
    obtain ⟨minimum', tail', grant', hp', -, hread⟩ := h datagram i hq
    cases hp.symm.trans hp'
    obtain ⟨_, _, _, hgranted, rfl⟩ := act_store hring
    cases hp.symm.trans hgranted
    have hlen : i < datagram.length := hlt.trans_le (min_le_right _ _)
    exact ⟨minimum, tail, grant, hp, hlt, readRun_store hread hlen⟩
  | commit =>
    obtain ⟨_, _, _, _, ring, -, -, -, rfl⟩ := udp_commit hstep
    cases hi
  | ring a =>
    obtain ⟨ha, ring, hring, rfl⟩ := udp_ring hstep
    obtain ⟨minimum, tail, grant, hp, hle, hread⟩ := h datagram i hi
    obtain ⟨hproducer, hbuf⟩ := background_step ha hring hp
    exact ⟨minimum, tail, grant, hproducer.trans hp, hle, hbuf ▸ hread⟩

/-- The chunk that is committed for a datagram is its front part of the maximum's length. -/
lemma commit_chunk (h : Stored u) (hstep : udpAct u .commit = some u') :
    ∃ minimum tail grant datagram, u.ring.producer = .granted minimum tail grant ∧
      u.pending = some (datagram, received grant datagram) ∧
      u'.datagrams = u.datagrams ++ [datagram] ∧
      chunks u'.ring = chunks u.ring ++ [datagram.take grant.rsvd.toNat] := by
  obtain ⟨minimum, tail, grant, datagram, ring, hp, hq, hring, rfl⟩ := udp_commit hstep
  obtain ⟨minimum', tail', grant', hp', -, hread⟩ := h datagram _ hq
  cases hp.symm.trans hp'
  refine ⟨minimum, tail, grant, datagram, hp, hq, rfl, ?_⟩
  have hlt : received grant datagram < 2 ^ 64 := (min_le_left _ _).trans_lt grant.rsvd.isLt
  have hnat : (BitVec.ofNat 64 (received grant datagram)).toNat = received grant datagram := by
    rw [BitVec.toNat_ofNat, Nat.mod_eq_of_lt hlt]
  obtain ⟨_, _, _, hgranted, -, rfl⟩ := act_commit hring
  cases hp.symm.trans hgranted
  rw [hnat, hread]
  simp [chunks, inFlight, hp, received, List.take_eq_take_min]

/-- What holds between the steps if every datagram received fits. -/
structure Whole (u : Udp) : Prop where
  stored : Stored u
  sound : Sound u.ring
  covers : Covers u.ring
  fits : ∀ datagram i, u.pending = some (datagram, i) → FitsGrant u.ring datagram.length
  chunks : UdpReceive.chunks u.ring = u.datagrams

lemma whole_start (buf : ℕ → Byte) : Whole (udpStart buf) :=
  ⟨by simp [Stored, udpStart], ⟨0, ringInv_start buf⟩, trivial, by simp [udpStart], rfl⟩

lemma whole_step {a : UdpAct} (h : Whole u) (hok : FitsDatagram u a)
    (hstep : udpAct u a = some u') : Whole u' := by
  have hstored := stored_step h.stored hstep
  cases a with
  | request =>
    obtain ⟨hnone, ring, hring, rfl⟩ := udp_request hstep
    refine ⟨hstored, sound_step (a := .request reqbuf) h.sound trivial hring,
      covers_step h.sound h.covers hring, fun datagram i hi => ?_,
      (chunks_step (by simp) hring).trans h.chunks⟩
    cases hnone.symm.trans hi
  | receive datagram =>
    obtain ⟨-, rfl⟩ := udp_receive hstep
    refine ⟨hstored, h.sound, h.covers, fun datagram i hi => ?_, h.chunks⟩
    cases hi
    exact hok
  | store =>
    obtain ⟨minimum, tail, grant, datagram, i, ring, hp, hq, hlt, hring, rfl⟩ := udp_store hstep
    have hfits := h.fits datagram i hq
    have hle : i + 1 ≤ datagram.length := hlt.trans_le (min_le_right _ _)
    have hstore : Fits u.ring (.store i (datagram.getD i 0)) := fitsGrant_mono hfits hle
    refine ⟨hstored, sound_step h.sound hstore hring,
      covers_step h.sound h.covers hring, fun datagram i hi => ?_,
      (chunks_step (by simp) hring).trans h.chunks⟩
    cases hi
    exact fitsGrant_step hfits (by simp) hring
  | commit =>
    obtain ⟨minimum, tail, grant, datagram, hp, hq, hdatagrams, hchunks⟩ :=
      commit_chunk h.stored hstep
    obtain ⟨_, _, _, _, ring, hp', hq', hring, rfl⟩ := udp_commit hstep
    cases hp.symm.trans hp'
    cases hq.symm.trans hq'
    have hfits := h.fits datagram _ hq
    have hroom := (fitsGrant_granted hp _).mp hfits
    have hcovers := h.covers
    rw [Covers, hp] at hcovers
    have hpad := le_pad8 datagram.length
    have hlen : datagram.length ≤ grant.rsvd.toNat := by
      have hmax : room _ _ _ ≤ grant.rsvd.toNat := hcovers
      omega
    refine ⟨hstored, sound_step h.sound ?_ hring, covers_step h.sound h.covers hring, by simp,
      ?_⟩
    · refine fitsGrant_mono hfits ?_
      rw [BitVec.toNat_ofNat]
      exact (Nat.mod_le _ _).trans (min_le_right _ _)
    · rw [hchunks, h.chunks, List.take_of_length_le hlen]
  | ring a =>
    obtain ⟨ha, ring, hring, rfl⟩ := udp_ring hstep
    have hnot : (∀ minimum, a ≠ .request minimum) ∧ ∀ written, a ≠ .commit written := by
      constructor <;> rintro _ rfl <;> exact ha.elim
    have hfits : Fits u.ring a := by
      cases a <;> trivial
    exact ⟨hstored, sound_step h.sound hfits hring, covers_step h.sound h.covers hring,
      fun datagram i hi => fitsGrant_step (h.fits datagram i hi) hnot.1 hring,
      (chunks_step hnot.2 hring).trans h.chunks⟩

end Steps

/-- In every run whose datagrams fit in the room they are granted, the chunks committed
are the datagrams and the chunks handed over are the first of them. In every run at all,
the chunk committed for a datagram is the datagram exactly when this is no longer than
the maximum granted. -/
theorem datagrams_whole (buf : ℕ → Byte) :
    (∀ u, RunsTo (Steps udpAct) FitsDatagram (udpStart buf) u →
      chunks u.ring = u.datagrams ∧ u.ring.obtained <+: u.datagrams) ∧
    ∀ u u', RunsTo (Steps udpAct) Free (udpStart buf) u → udpAct u .commit = some u' →
      ∃ minimum tail grant datagram chunk, u.ring.producer = .granted minimum tail grant ∧
        u'.datagrams = u.datagrams ++ [datagram] ∧ chunks u'.ring = chunks u.ring ++ [chunk] ∧
        (chunk = datagram ↔ datagram.length ≤ grant.rsvd.toNat) := by
  constructor
  · intro u hrun
    have hwhole : Whole u := hrun.invariant (whole_start buf) fun _ _ _ h hok hstep =>
      whole_step h hok hstep
    refine ⟨hwhole.chunks, ?_⟩
    rw [← hwhole.chunks]
    exact (obtained_front hwhole.sound).trans (List.prefix_append _ _)
  · intro u u' hrun hstep
    have hstored : Stored u := hrun.invariant (P := Stored) (by simp [Stored, udpStart])
      fun _ _ _ h _ hstep => stored_step h hstep
    obtain ⟨minimum, tail, grant, datagram, hp, -, hdatagrams, hchunks⟩ :=
      commit_chunk hstored hstep
    exact ⟨minimum, tail, grant, datagram, _, hp, hdatagrams, hchunks, List.take_eq_self_iff _⟩

def published : List UdpAct := List.replicate 8 (.ring .putByte) ++ [.ring .publish]

def handedOver (n : ℕ) : List UdpAct := List.flatten
  [[.ring .readRequest, .ring .readSize], .replicate n (.ring .readByte), [.ring .readDone]]

/-- The second datagram is stored while the first one is released. -/
def secondDatagram : List UdpAct :=
  [.request, .receive [0x2f, 0x62, 0x63], .store, .ring .readAdvance, .store, .ring .release,
    .store, .commit]

def twoDatagrams : List UdpAct :=
  [.request, .receive [0x2f, 0x61], .store, .store, .commit] ++ published ++ handedOver 2 ++
    secondDatagram ++ published ++ handedOver 3

theorem datagrams_whole_two :
    ∃ u, follow udpAct FitsDatagram (udpStart fun _ => 0) twoDatagrams = some u ∧
      u.ring.obtained = [[0x2f, 0x61], [0x2f, 0x62, 0x63]] ∧ u.ring.obtained <+: u.datagrams := by
  have hobtained : (follow udpAct FitsDatagram (udpStart fun _ => 0) twoDatagrams).map
      (·.ring.obtained) = some [[0x2f, 0x61], [0x2f, 0x62, 0x63]] := by decide +kernel
  obtain ⟨u, hu, hlist⟩ := Option.map_eq_some_iff.mp hobtained
  have hrun := runsTo_follow udpAct FitsDatagram RunsTo.refl hu
  exact ⟨u, hu, hlist, ((datagrams_whole fun _ => 0).1 u hrun).2⟩

/-- The bytes of a datagram are stored one after the other. -/
lemma stores_run {buf : ℕ → Byte} {u : Udp} {minimum tail : Size} {grant : Grant}
    {datagram : List Byte} (hrun : RunsTo (Steps udpAct) Free (udpStart buf) u)
    (hp : u.ring.producer = .granted minimum tail grant) (hq : u.pending = some (datagram, 0))
    {n : ℕ} (hn : n ≤ received grant datagram) :
    ∃ u', RunsTo (Steps udpAct) Free (udpStart buf) u' ∧
      u'.ring.producer = .granted minimum tail grant ∧ u'.pending = some (datagram, n) ∧
      u'.datagrams = u.datagrams ∧ chunks u'.ring = chunks u.ring := by
  induction n with
  | zero => exact ⟨u, hrun, hp, hq, rfl, rfl⟩
  | succ n ih =>
    obtain ⟨u', hrun', hp', hq', hdatagrams, hchunks⟩ := ih (by omega)
    have hstore : act u'.ring (.store n (datagram.getD n 0)) = some { u'.ring with
        buf := Function.update u'.ring.buf (grant.start.toNat + 8 + n) (datagram.getD n 0) } := by
      simp only [act, hp']
    have hstep : udpAct u' .store = some { u' with
        ring := { u'.ring with
          buf := Function.update u'.ring.buf (grant.start.toNat + 8 + n) (datagram.getD n 0) }
        pending := some (datagram, n + 1) } := by
      simp only [udpAct, hp', hq', if_pos (show n < received grant datagram by omega), hstore,
        Option.map_some]
    exact ⟨_, hrun'.snoc trivial hstep, hp', rfl, hdatagrams, hchunks⟩

/-- A datagram of 8192 bytes is committed as a chunk of 8191 on the empty ring. -/
theorem datagram_cut :
    ¬ ∀ (buf : ℕ → Byte) (u : Udp), RunsTo (Steps udpAct) Free (udpStart buf) u →
      chunks u.ring = u.datagrams := by
  intro h
  obtain ⟨big, hlen⟩ : ∃ big : List Byte, big.length = 8192 :=
    ⟨List.replicate 8192 0, List.length_replicate⟩
  let granted : Udp :=
    ⟨{ start (fun _ => 0) with producer := .granted reqbuf 0 ⟨0, 8191, 0⟩ }, none, []⟩
  have hrequest : udpAct (udpStart fun _ => 0) .request = some granted := rfl
  have hreceive : udpAct granted (.receive big) =
      some { granted with pending := some (big, 0) } := by
    have hne : big ≠ [] := List.ne_nil_of_length_pos (by omega)
    simp only [udpAct, granted, if_neg hne]
  have hreceived : received ⟨0, 8191, 0⟩ big = 8191 := by
    rw [received, hlen]
    rfl
  obtain ⟨u, hrun, hp, hq, hdatagrams, hchunks⟩ := stores_run
    ((RunsTo.refl.snoc trivial hrequest).snoc trivial hreceive) rfl rfl hreceived.ge
  obtain ⟨u', hstep⟩ : ∃ u', udpAct u .commit = some u' := by
    simp only [udpAct, hp, hq, hreceived, if_true, act]
    exact ⟨_, rfl⟩
  have hstored : Stored u := hrun.invariant (P := Stored) (by simp [Stored, udpStart])
    fun _ _ _ h _ hstep => stored_step h hstep
  obtain ⟨_, _, grant, datagram, hp', hq', hdatagrams', hchunks'⟩ := commit_chunk hstored hstep
  cases hp.symm.trans hp'
  obtain ⟨rfl, -⟩ := Prod.mk.inj (Option.some.inj (hq.symm.trans hq'))
  have hwhole := h _ u' (hrun.snoc trivial hstep)
  rw [hchunks', hdatagrams', hchunks, hdatagrams] at hwhole
  have hle : big.length ≤ 8191 := by
    simp at hwhole
    exact hwhole.2
  omega

end Osc2FtdiDmx.UdpReceive
