import Osc2FtdiDmx.BlockRefinement
import Osc2FtdiDmx.ScheduleDrain

/-! The elements of the schedule over a whole session: packets are handled, beats run
the elements that are due, and the rest is freed at the end. -/
namespace Osc2FtdiDmx.SessionSchedule
open BytesEndian OscMemory OscReader ReaderSpecs FuelledRuns LinkedHeap TransitionRuns
open PacketHandler PacketWalk
open PacketFlatten BeatLoop ScheduleDrain SchedBlocks BlockRefinement

/-- Where the session stands: `_beat` reads packets, or runs the schedule of a beat with
its nominal time; after it ended, `_sched_deinit` runs. -/
inductive Phase
  | reading
  | draining (now : Timespec)
  | deinit
  | finished
  deriving DecidableEq, Repr

/-- `ran` lists the elements executed, each with the time of its beat; `dropped` those
that `_sched_deinit` freed. -/
structure Session (σ : Type) where
  phase : Phase
  proc : Proc σ
  ran : List (Sched × Timespec)
  dropped : List Sched

def sessionStart {σ : Type} (state : σ) : Session σ :=
  ⟨.reading, ⟨state, none, fun _ => none, 0, []⟩, [], []⟩

inductive Event
  | packet (p : Packet) (m : Memory) (a : Addr)
  | beat (now : Timespec)
  | drain (now : Timespec)
  | stop
  | deinit

section Code
variable {σ : Type} (H : Host σ)

/-- The call of the handler for the element in a block. -/
def execute (fuel : ℕ) (proc : Proc σ) (elmnt : Sched) : Fuelled Crash (Proc σ) :=
  handleOscPacketLinked H.toEnv (H.heap elmnt) fuel proc oscImmediate (H.addr elmnt) elmnt.len

/-- One iteration of the loop over `app->list` in `_beat`. -/
def drainRound (now : Timespec) (fuel : ℕ) (s : Session σ) : Fuelled Crash (Session σ) :=
  match s.proc.list with
  | none => pure { s with phase := .reading }
  | some p => do
      let b ← liftM (deref s.proc.heap p)
      if drainDiff now b.val < 0 then pure { s with phase := .reading } else do
        let proc ← execute H fuel s.proc b.val
        let after ← liftM (deref proc.heap p)
        let heap ← liftM (release proc.heap p)
        pure { s with proc := { proc with list := after.next, heap }, ran := s.ran ++ [(b.val, now)] }

/-- One iteration of `_sched_deinit`. -/
def deinitRound (s : Session σ) : Except Crash (Session σ) :=
  match s.proc.list with
  | none => pure { s with phase := .finished }
  | some p => do
      let b ← deref s.proc.heap p
      let heap ← release s.proc.heap p
      pure { s with proc := { s.proc with list := b.next, heap }, dropped := s.dropped ++ [b.val] }

def sessionRun (s : Session σ) : Event → ℕ → Fuelled Crash (Session σ)
  | .packet p m a, fuel => do
      let proc ← handleOscPacketLinked H.toEnv m fuel s.proc oscImmediate a
        (BitVec.ofNat 64 p.encode.length)
      pure { s with proc }
  | .beat now, _ => pure { s with phase := .draining now }
  | .drain now, fuel => drainRound H now fuel s
  | .stop, _ => pure { s with phase := .deinit }
  | .deinit, _ => lift (deinitRound s)

/-- The packet is in the ring, and the loops run where they stand in the code. -/
def Enabled (s : Session σ) : Event → Prop
  | .packet p m a => s.phase = .reading ∧ Placed m a p.encode ∧ p.encode.length < 2 ^ 31
  | .beat _ => s.phase = .reading
  | .drain now => s.phase = .draining now
  | .stop => s.phase = .reading
  | .deinit => s.phase = .deinit

def sessionStep (s : Session σ) (event : Event) (s' : Session σ) : Prop :=
  Enabled s event ∧ Converges (sessionRun H s event) (.ok s')

end Code

/-- The block of a waiting element holds a message. -/
def Waiting (e : Sched) : Prop :=
  (∃ rest, e.buf = slash :: rest) ∧ e.buf.length < 2 ^ 31 ∧ e.len = BitVec.ofNat 64 e.buf.length

section Messages
variable {σ : Type} {E : Env σ} {m : Memory} {app app' : App σ}

lemma waiting_handleSpot (h : ∀ e ∈ app.list, Waiting e) {spot : Spot}
    (hslash : ∃ rest, spot.bytes = slash :: rest) (hlen : spot.bytes.length < 2 ^ 31)
    (hrun : handleSpot E m app spot = .ok app') : ∀ e ∈ app'.list, Waiting e := by
  rw [handleSpot] at hrun
  split_ifs at hrun with ht hroom
  · obtain ⟨state, -, hrun⟩ := bind_eq_ok.mp hrun
    cases hrun
    exact h
  · cases hrun
    intro e he
    rcases List.mem_cons.mp ((schedAppend_perm _ _).subset he) with rfl | he
    · exact ⟨hslash, hlen, rfl⟩
    · exact h e he
  · cases hrun
    exact h

lemma waiting_handleSpots {spots : List Spot} (h : ∀ e ∈ app.list, Waiting e)
    (hspots : ∀ s ∈ spots, (∃ rest, s.bytes = slash :: rest) ∧ s.bytes.length < 2 ^ 31)
    (hrun : spots.foldlM (handleSpot E m) app = .ok app') : ∀ e ∈ app'.list, Waiting e := by
  induction spots generalizing app with
  | nil =>
    cases hrun
    exact h
  | cons spot spots ih =>
    rw [List.foldlM_cons] at hrun
    obtain ⟨mid, hmid, hrun⟩ := bind_eq_ok.mp hrun
    obtain ⟨hslash, hlen⟩ := hspots spot List.mem_cons_self
    exact ih (waiting_handleSpot h hslash hlen hmid)
      (fun s hs => hspots s (List.mem_cons_of_mem _ hs)) hrun

end Messages

/-- What holds between the steps of a session. -/
structure Sound {σ : Type} (s : Session σ) : Prop where
  refines : ∃ app, Refines (s.ran.map Prod.fst ++ s.dropped) s.proc app ∧ ∀ e ∈ app.list, Waiting e
  early : ∀ r ∈ s.ran, r.1.due.nanos ≤ r.2.nanos
  finished : s.phase = .finished → s.proc.list = none

lemma sound_start {σ : Type} (state : σ) : Sound (sessionStart state) := by
  refine ⟨⟨⟨state, [], 0⟩, ⟨rfl, rfl, .nil, .refl _, .nil, ?_, ?_⟩, ?_⟩, ?_, ?_⟩ <;>
    simp [sessionStart]

section Steps
variable {σ : Type} {H : Host σ} {s s' : Session σ} {app : App σ}

/-- An element that waits is handled as a message: nothing but the state can change. -/
lemma execute_waiting {e : Sched} (he : Waiting e) (fuel : ℕ) (proc : Proc σ) :
    execute H (fuel + 1) proc e =
      lift ((H.message (H.heap e) (readerInitialize (H.addr e) e.len) e.len proc.state).mapError
        Crash.fault) >>= fun state => .ok { proc with state } := by
  obtain ⟨⟨rest, hbuf⟩, hlen, hsize⟩ := he
  have hplaced := H.placed e hlen
  rw [hbuf] at hplaced hsize
  have hover := over_readerInit hplaced
  rw [← hsize] at hover
  rw [execute, handleOscPacketLinked, packetWalk_message _ _ (isBundle_message hover),
    handleMessageLinked, isMessage_message hover]
  change lift ((H.message _ _ _ _).mapError Crash.fault >>= _) = _
  rw [lift_bind]
  rfl

/-- The session after an element was executed, its block was `⟨next, e⟩`. -/
def afterRun (s : Session σ) (now : Timespec) (e : Sched) (next : Option ℕ) (state : σ) : Session σ :=
  { s with
    proc := { s.proc with state, list := next, heap := Function.update s.proc.heap e.id none }
    ran := s.ran ++ [(e, now)] }

lemma drainRound_due {now : Timespec} {e : Sched} {next : Option ℕ} (he : Waiting e)
    (hlist : s.proc.list = some e.id) (hblock : s.proc.heap e.id = some ⟨next, e⟩)
    (hdue : ¬ drainDiff now e < 0) (fuel : ℕ) :
    drainRound H now (fuel + 1) s =
      lift ((H.message (H.heap e) (readerInitialize (H.addr e) e.len) e.len s.proc.state).mapError
        Crash.fault) >>= fun state => .ok (afterRun s now e next state) := by
  simp only [drainRound, hlist, deref_some hblock, liftM_eq_lift, lift_ok, ok_bind, if_neg hdue,
    execute_waiting he]
  cases H.message (H.heap e) (readerInitialize (H.addr e) e.len) e.len s.proc.state with
  | error f => rfl
  | ok state =>
    simp only [Except.mapError, lift_ok, ok_bind, deref_some hblock, release]
    rfl

/-- The head of a linked list that is not empty. -/
lemma linked_list_cases (h : Linked s.proc.heap s.proc.list app.list) :
    (s.proc.list = none ∧ app.list = []) ∨ ∃ e es next, app.list = e :: es ∧
      s.proc.list = some e.id ∧ s.proc.heap e.id = some ⟨next, e⟩ := by
  cases hlist : app.list with
  | nil =>
    rw [hlist] at h
    exact Or.inl ⟨seg_nil.mp h, rfl⟩
  | cons e es =>
    rw [hlist] at h
    obtain ⟨hhead, next, hblock, -⟩ := seg_cons.mp h
    exact Or.inr ⟨e, es, next, rfl, hhead, hblock⟩

lemma drainRound_stop {now : Timespec} (h : s.proc.list = none ∨ ∃ e next,
    s.proc.list = some e.id ∧ s.proc.heap e.id = some ⟨next, e⟩ ∧ drainDiff now e < 0) (fuel : ℕ) :
    drainRound H now fuel s = .ok { s with phase := .reading } := by
  rcases h with hnone | ⟨e, next, hlist, hblock, hearly⟩
  · simp only [drainRound, hnone]
    rfl
  · simp only [drainRound, hlist, deref_some hblock, liftM_eq_lift, lift_ok, ok_bind, if_pos hearly]
    rfl

/-- The session goes on, or a message has no defined outcome. -/
def Goes (x : Fuelled Crash (Session σ)) : Prop :=
  (∃ s', x = .ok s' ∧ Sound s') ∨ ∃ f, x = .error (some (.fault f))

lemma Goes.of_ok (h : Sound s) : Goes (.ok s : Fuelled Crash (Session σ)) := Or.inl ⟨s, rfl, h⟩

lemma sound_phase (h : Sound s) {phase : Phase} (hphase : phase ≠ .finished) :
    Sound { s with phase } := ⟨h.refines, h.early, fun heq => absurd heq hphase⟩

lemma goes_drain {now : Timespec} (h : Sound s) (hen : Enabled s (.drain now)) (fuel : ℕ) :
    Goes (drainRound H now (fuel + 1) s) ∧
      (drainRound H now 0 s = starve ∨ Goes (drainRound H now 0 s)) := by
  obtain ⟨app, href, hwait⟩ := h.refines
  rcases linked_list_cases href.linked with ⟨hnone, -⟩ | ⟨e, es, next, hlist, hhead, hblock⟩
  · simp only [drainRound_stop (Or.inl hnone)]
    exact ⟨.of_ok (sound_phase h (by simp)), Or.inr (.of_ok (sound_phase h (by simp)))⟩
  · by_cases hdue : drainDiff now e < 0
    · simp only [drainRound_stop (Or.inr ⟨e, next, hhead, hblock, hdue⟩)]
      exact ⟨.of_ok (sound_phase h (by simp)), Or.inr (.of_ok (sound_phase h (by simp)))⟩
    · have hstarve : drainRound H now 0 s = starve := by
        simp only [drainRound, hhead, deref_some hblock, liftM_eq_lift, lift_ok, ok_bind, if_neg hdue]
        rfl
      refine ⟨?_, Or.inl hstarve⟩
      rw [drainRound_due (hwait e (by rw [hlist]; simp)) hhead hblock hdue]
      cases H.message (H.heap e) (readerInitialize (H.addr e) e.len) e.len s.proc.state with
      | error f => exact Or.inr ⟨f, rfl⟩
      | ok state =>
        refine .of_ok ⟨⟨_, (href.withState state).remove hlist hblock ?_, fun x hx => ?_⟩, ?_, ?_⟩
        · simp only [afterRun, List.map_append, List.map_singleton, List.append_assoc]
          exact List.perm_middle
        · exact hwait x (by rw [hlist]; exact List.mem_cons_of_mem _ hx)
        · intro r hr
          rcases List.mem_append.mp hr with hr | hr
          · exact h.early r hr
          · obtain rfl := List.mem_singleton.mp hr
            rw [drainDiff_neg] at hdue
            exact not_lt.mp hdue
        · intro hphase
          exact absurd (hen.symm.trans hphase) (by simp)

lemma goes_deinit (h : Sound s) (hen : Enabled s .deinit) :
    Goes (lift (deinitRound s) : Fuelled Crash (Session σ)) := by
  obtain ⟨app, href, hwait⟩ := h.refines
  rcases linked_list_cases href.linked with ⟨hnone, -⟩ | ⟨e, es, next, hlist, hhead, hblock⟩
  · simp only [deinitRound, hnone]
    exact .of_ok ⟨h.refines, h.early, fun _ => hnone⟩
  · simp only [deinitRound, hhead, deref_some hblock, release, ok_bind, pure_eq_ok]
    refine .of_ok ⟨⟨_, href.remove hlist hblock ?_, fun x hx => ?_⟩, h.early, fun hphase => ?_⟩
    · rw [← List.append_assoc]
      exact List.perm_append_singleton _ _
    · exact hwait x (by rw [hlist]; exact List.mem_cons_of_mem _ hx)
    · exact absurd (hen.symm.trans hphase) (by simp)

/-- What a packet does to the list is what it does to the blocks. -/
lemma goes_packet {p : Packet} {m : Memory} {a : Addr} (h : Sound s)
    (hen : Enabled s (.packet p m a)) (fuel : ℕ) :
    sessionRun H s (.packet p m a) fuel = starve ∨ Goes (sessionRun H s (.packet p m a) fuel) := by
  obtain ⟨app, href, hwait⟩ := h.refines
  obtain ⟨hphase, hplaced, hsize⟩ := hen
  have hplace := handleOscPacket_place (handles_handleSpot H.toEnv m) p app oscImmediate a hplaced
    hsize
  have hsim := handleOscPacket_sim (E := H.toEnv) (m := m) fuel href oscImmediate a
    (BitVec.ofNat 64 p.encode.length)
  rw [sessionRun]
  generalize hrun : handleOscPacketLinked H.toEnv m fuel s.proc oscImmediate a
    (BitVec.ofNat 64 p.encode.length) = x at hsim ⊢
  generalize hlist : handleOscPacket H.toEnv m fuel app oscImmediate a
    (BitVec.ofNat 64 p.encode.length) = y at hsim
  cases hsim with
  | error e =>
    cases e with
    | none => exact Or.inl rfl
    | some f => exact Or.inr (Or.inr ⟨f, rfl⟩)
  | @ok proc app' href' =>
    have hok := hplace.unique (handleOscPacket_chain _ _ _ _ _ _) ⟨fuel, hlist, ok_ne_starve _⟩
    have hwait' := waiting_handleSpots hwait (spots_bytes p a hsize) (lift_eq_ok.mp hok)
    refine Or.inr (.of_ok ⟨⟨app', href', hwait'⟩, h.early, fun hover => ?_⟩)
    exact absurd (hphase.symm.trans hover) (by simp)

lemma packet_ends {p : Packet} {m : Memory} {a : Addr} (h : Sound s)
    (hen : Enabled s (.packet p m a)) : ∃ n, sessionRun H s (.packet p m a) n ≠ starve := by
  obtain ⟨app, href, -⟩ := h.refines
  obtain ⟨-, hplaced, hsize⟩ := hen
  obtain ⟨n, hn, hne⟩ := handleOscPacket_place (handles_handleSpot H.toEnv m) p app oscImmediate a
    hplaced hsize
  have hsim := handleOscPacket_sim (E := H.toEnv) (m := m) n href oscImmediate a
    (BitVec.ofNat 64 p.encode.length)
  exact ⟨n, bind_ne_starve (hsim.ne_starve (hn.trans_ne hne)) fun _ => ok_ne_starve _⟩

lemma goes_ne_starve {x : Fuelled Crash (Session σ)} (h : Goes x) : x ≠ starve := by
  rcases h with ⟨s', rfl, -⟩ | ⟨f, rfl⟩
  · exact ok_ne_starve _
  · exact fault_ne_starve _

/-- Each event that is enabled ends, and does not fail in a block. -/
lemma event_goes {event : Event} (h : Sound s) (hen : Enabled s event) :
    (∃ n, sessionRun H s event n ≠ starve) ∧
      ∀ n, sessionRun H s event n = starve ∨ Goes (sessionRun H s event n) := by
  cases event with
  | packet p m a => exact ⟨packet_ends h hen, goes_packet h hen⟩
  | beat now =>
    have hgoes : Goes (.ok { s with phase := .draining now } : Fuelled Crash (Session σ)) :=
      .of_ok (sound_phase h (by simp))
    exact ⟨⟨0, goes_ne_starve hgoes⟩, fun _ => Or.inr hgoes⟩
  | drain now =>
    refine ⟨⟨1, goes_ne_starve (goes_drain h hen 0).1⟩, fun n => ?_⟩
    cases n with
    | zero => exact (goes_drain h hen 0).2
    | succ n => exact Or.inr (goes_drain h hen n).1
  | stop =>
    have hgoes : Goes (.ok { s with phase := .deinit } : Fuelled Crash (Session σ)) :=
      .of_ok (sound_phase h (by simp))
    exact ⟨⟨0, goes_ne_starve hgoes⟩, fun _ => Or.inr hgoes⟩
  | deinit =>
    have hgoes : Goes (lift (deinitRound s) : Fuelled Crash (Session σ)) := goes_deinit h hen
    exact ⟨⟨0, goes_ne_starve hgoes⟩, fun _ => Or.inr hgoes⟩

lemma sound_step {event : Event} (h : Sound s) (hstep : sessionStep H s event s') : Sound s' := by
  obtain ⟨hen, n, hn, hne⟩ := hstep
  rcases (event_goes h hen).2 n with hstarve | ⟨t, ht, hsound⟩ | ⟨f, hf⟩
  · exact absurd (hn.symm.trans hstarve) hne
  · obtain rfl := Except.ok.inj (hn.symm.trans ht)
    exact hsound
  · cases hn.symm.trans hf

/-- The session is over: the elements `es` of `s` were freed one after the other. -/
structure Ended (s s' : Session σ) (es : List Sched) : Prop where
  phase : s'.phase = .finished
  dropped : s'.dropped = s.dropped ++ es
  ran : s'.ran = s.ran
  state : s'.proc.state = s.proc.state

end Steps

section Examples

end Examples

end Osc2FtdiDmx.SessionSchedule
