import Osc2FtdiDmx.BeatLoop

/-! The schedule over whole runs. A new element always goes to the end of the list,
so the drain is right as long as timed messages arrive in the order they are due. -/
namespace Osc2FtdiDmx.ScheduleDrain
open BytesEndian OscMemory OscReader FuelledRuns PacketHandler PacketFlatten TransitionRuns BeatLoop

/-- `e` is due before `e'`, or at the same time and was scheduled first. -/
def Before (e e' : Sched) : Prop :=
  e.due.nanos < e'.due.nanos ∨ e.due.nanos = e'.due.nanos ∧ e.id < e'.id

lemma Before.le {e e' : Sched} (h : Before e e') : e.due.nanos ≤ e'.due.nanos := by
  rcases h with h | ⟨h, -⟩
  · exact h.le
  · exact h.le

/-- With equal nanoseconds the search for an insertion point runs to the end. -/
lemma schedAppend_tail {list : List Sched} {elmnt : Sched}
    (h : ∀ e ∈ list, e.due.tvNsec ≤ elmnt.due.tvNsec) : schedAppend list elmnt = list ++ [elmnt] := by
  induction list with
  | nil => rfl
  | cons ptr list ih =>
    have hptr : ¬ schedAfter ptr elmnt := by
      have hle := h ptr (by simp)
      rw [schedAfter]
      omega
    rw [schedAppend, if_neg hptr, ih fun e he => h e (by simp [he]), List.cons_append]

/-- The schedule between two events of a run. -/
structure Sorted {σ : Type} (app : App σ) : Prop where
  order : app.list.Pairwise Before
  ids : ∀ e ∈ app.list, e.id < app.fresh
  flat : ∀ e ∈ app.list, e.due.tvNsec = 0
  bytes : ∀ e ∈ app.list, ∃ rest, e.buf = slash :: rest ∧ e.buf.length < 2 ^ 31 ∧
    e.len = BitVec.ofNat 64 e.buf.length

/-- Elements may leave the schedule. -/
lemma Sorted.sublist {σ : Type} {app app' : App σ} (h : Sorted app)
    (hsub : app'.list.Sublist app.list) (hfresh : app'.fresh = app.fresh) : Sorted app' :=
  ⟨h.order.sublist hsub, fun e he => hfresh ▸ h.ids e (hsub.subset he),
    fun e he => h.flat e (hsub.subset he), fun e he => h.bytes e (hsub.subset he)⟩

section Arrivals
variable {σ : Type} {E : Env σ} {m : Memory} {app app' : App σ}

/-- The due times of the elements that these messages put on the schedule, in order, if
`malloc` was called `n` times before them. -/
def arrivals (E : Env σ) (n : ℕ) (msgs : List (BitVec 64 × List Byte)) : List ℤ :=
  (granted E n msgs).map (·.due.nanos)

def dueTimes (app : App σ) : List ℤ := app.list.map (·.due.nanos)

lemma sorted_schedOne (h : Sorted app) {t : BitVec 64} {rest : List Byte}
    (hlen : (slash :: rest).length < 2 ^ 31)
    (hlast : ∀ e ∈ app.list, e.due.nanos ≤ (schedDue t).nanos) :
    Sorted (schedOne app t (slash :: rest)) ∧
      dueTimes (schedOne app t (slash :: rest)) =
        dueTimes app ++ [(schedDue t).nanos] := by
  have htail : schedAppend app.list (schedElement app t (slash :: rest)) =
      app.list ++ [schedElement app t (slash :: rest)] := by
    apply schedAppend_tail
    intro e he
    rw [h.flat e he]
    exact (schedDue_nsec t).ge
  refine ⟨⟨?_, ?_, ?_, ?_⟩, ?_⟩
  · simp only [schedOne, htail]
    refine List.pairwise_append.mpr ⟨h.order, List.pairwise_singleton _ _, fun e he e' he' => ?_⟩
    obtain rfl := List.mem_singleton.mp he'
    rcases (hlast e he).lt_or_eq with hlt | heq
    · exact Or.inl hlt
    · exact Or.inr ⟨heq, h.ids e he⟩
  · intro e he
    simp only [schedOne, htail, List.mem_append, List.mem_singleton] at he ⊢
    rcases he with he | rfl
    · exact Nat.lt_succ_of_lt (h.ids e he)
    · exact Nat.lt_succ_self _
  · intro e he
    simp only [schedOne, htail, List.mem_append, List.mem_singleton] at he
    rcases he with he | rfl
    · exact h.flat e he
    · exact schedDue_nsec t
  · intro e he
    simp only [schedOne, htail, List.mem_append, List.mem_singleton] at he
    rcases he with he | rfl
    · exact h.bytes e he
    · exact ⟨rest, rfl, hlen, rfl⟩
  · simp only [dueTimes, schedOne, htail, List.map_append]
    rfl

/-- A message that gets no block was one more call of `malloc`. -/
lemma Sorted.refused (h : Sorted app) : Sorted { app with fresh := app.fresh + 1 } :=
  ⟨h.order, fun e he => Nat.lt_succ_of_lt (h.ids e he), h.flat, h.bytes⟩

/-- One message keeps the schedule sorted if it is not due before one that waits. -/
lemma sorted_handleSpot (h : Sorted app) {s : Spot} {rest : List Byte}
    {msgs : List (BitVec 64 × List Byte)} (hs : s.bytes = slash :: rest)
    (hlen : s.bytes.length < 2 ^ 31)
    (horder : (dueTimes app ++
      arrivals E app.fresh ((s.timetag, s.bytes) :: msgs)).Pairwise (· ≤ ·))
    (hrun : handleSpot E m app s = .ok app') :
    Sorted app' ∧ (dueTimes app' ++ arrivals E app'.fresh msgs).Pairwise (· ≤ ·) := by
  rw [handleSpot, Spot.len] at hrun
  rw [arrivals] at horder ⊢
  by_cases ht : s.timetag = oscImmediate
  · rw [if_pos ht] at hrun
    rw [granted_now ht] at horder
    obtain ⟨state, -, hrun⟩ := bind_eq_ok.mp hrun
    cases hrun
    exact ⟨⟨h.order, h.ids, h.flat, h.bytes⟩, horder⟩
  · rw [if_neg ht] at hrun
    rw [granted_later ht] at horder
    by_cases hroom : E.malloc app.fresh (sizeofSched + BitVec.ofNat 64 s.bytes.length) = true
    · rw [if_pos hroom] at hrun horder
      cases hrun
      have hlast : ∀ e ∈ app.list, e.due.nanos ≤ (schedDue s.timetag).nanos := fun e he =>
        (List.pairwise_append.mp horder).2.2 _ (List.mem_map_of_mem he) _ List.mem_cons_self
      obtain ⟨hsorted, hdue⟩ := sorted_schedOne h (hs ▸ hlen) hlast
      rw [hs]
      refine ⟨hsorted, ?_⟩
      rw [hdue, List.append_assoc]
      exact horder
    · rw [if_neg hroom] at hrun horder
      cases hrun
      exact ⟨h.refused, horder⟩

/-- By induction on the messages; each call of `malloc` is one further on. -/
lemma sorted_handleSpots {spots : List Spot} (h : Sorted app)
    (hbytes : ∀ s ∈ spots, (∃ rest, s.bytes = slash :: rest) ∧ s.bytes.length < 2 ^ 31)
    (horder : (dueTimes app ++
      arrivals E app.fresh (spots.map fun s => (s.timetag, s.bytes))).Pairwise (· ≤ ·))
    (hrun : spots.foldlM (handleSpot E m) app = .ok app') : Sorted app' := by
  induction spots generalizing app with
  | nil =>
    cases hrun
    exact h
  | cons s spots ih =>
    rw [List.foldlM_cons] at hrun
    obtain ⟨mid, hmid, hrun⟩ := bind_eq_ok.mp hrun
    obtain ⟨⟨rest, hs⟩, hlen⟩ := hbytes s (by simp)
    obtain ⟨hsorted, horder'⟩ := sorted_handleSpot h hs hlen horder hmid
    exact ih hsorted (fun s' hs' => hbytes s' (by simp [hs'])) horder' hrun

end Arrivals

mutual

lemma flatten_bytes : ∀ (p : Packet) (t : BitVec 64), ∀ tb ∈ p.flatten t,
    (∃ rest, tb.2 = slash :: rest) ∧ tb.2.length ≤ p.encode.length
  | .message rest, t, tb, h => by
      rw [Packet.flatten, List.mem_singleton] at h
      rw [h, Packet.encode]
      exact ⟨⟨rest, rfl⟩, le_rfl⟩
  | .bundle timetag elems, t, tb, h => by
      rw [Packet.flatten] at h
      obtain ⟨hslash, hlen⟩ := flattenElems_bytes elems timetag tb h
      refine ⟨hslash, ?_⟩
      rw [Packet.encode, List.length_append, List.length_append]
      omega

lemma flattenElems_bytes : ∀ (ps : List Packet) (t : BitVec 64), ∀ tb ∈ flattenElems t ps,
    (∃ rest, tb.2 = slash :: rest) ∧ tb.2.length ≤ (encodeElems ps).length
  | [], t, tb, h => by
      rw [flattenElems] at h
      cases h
  | p :: ps, t, tb, h => by
      rw [flattenElems, List.mem_append] at h
      rw [encodeElems, List.length_append, List.length_append]
      rcases h with h | h
      · obtain ⟨hslash, hlen⟩ := flatten_bytes p t tb h
        exact ⟨hslash, by omega⟩
      · obtain ⟨hslash, hlen⟩ := flattenElems_bytes ps t tb h
        exact ⟨hslash, by omega⟩

end

/-- Every message of a packet starts with a slash and is no longer than the packet. -/
lemma spots_bytes (p : Packet) (a : Addr) (hsize : p.encode.length < 2 ^ 31) :
    ∀ s ∈ p.place oscImmediate a,
      (∃ rest, s.bytes = slash :: rest) ∧ s.bytes.length < 2 ^ 31 := by
  intro s hs
  have hmem : (s.timetag, s.bytes) ∈ p.flatten oscImmediate := by
    rw [← place_flatten p oscImmediate a]
    exact List.mem_map_of_mem hs
  obtain ⟨hslash, hlen⟩ := flatten_bytes p oscImmediate _ hmem
  exact ⟨hslash, hlen.trans_lt hsize⟩

section Runs
variable {σ : Type} {H : Host σ} {app app' : App σ}

/-- The timed messages of a packet are due in the order they come in, and not before
any element that waits already. -/
def InOrder (H : Host σ) (app : App σ) : BeatEvent → Prop
  | .packet p _ _ =>
      (dueTimes app ++ arrivals H.toEnv app.fresh (p.flatten oscImmediate)).Pairwise (· ≤ ·)
  | .drain _ _ => True

instance (H : Host σ) (app : App σ) (event : BeatEvent) : Decidable (InOrder H app event) :=
  match event with
  | .packet _ _ _ => inferInstanceAs (Decidable (List.Pairwise _ _))
  | .drain _ _ => inferInstanceAs (Decidable True)

lemma sorted_packet (h : Sorted app) {p : Packet} {m : Memory} {a : Addr}
    (horder : InOrder H app (.packet p m a)) (hstep : beatStep H app (.packet p m a) app') :
    Sorted app' := by
  obtain ⟨hplaced, hsize, hrun⟩ := hstep
  have hspots := handleOscPacket_place (handles_handleSpot H.toEnv m) p app oscImmediate a hplaced
    hsize
  have hok := lift_eq_ok.mp ((hspots.unique (handleOscPacket_chain _ _ _ _ _ _) hrun))
  refine sorted_handleSpots h (spots_bytes p a hsize) ?_ hok
  rw [place_flatten]
  exact horder

/-- Every sufficient budget gives the drain this result. -/
def DrainSettles (H : Host σ) (now : Timespec) (app : App σ) (ran : List Sched)
    (x : Fuelled Fault (App σ × List Sched)) : Prop :=
  ∃ N, ∀ n ≥ N, drainLoop H now n app ran = x

/-- A drain executes a front part of the list and stops before an element not yet due. -/
def Drained (now : Timespec) (app app' : App σ) (ran : List Sched) : Prop :=
  app.list = ran ++ app'.list ∧ app'.fresh = app.fresh ∧
    ∀ e rest, app'.list = e :: rest → now.nanos < e.due.nanos

lemma schedNext_head (elmnt : Sched) (list : List Sched) :
    schedNext elmnt (elmnt :: list) = list := by
  simp [schedNext]

lemma drain_element (H : Host σ) (app : App σ) {elmnt : Sched} {rest : List Byte}
    (hbuf : elmnt.buf = slash :: rest) (hlen : elmnt.buf.length < 2 ^ 31)
    (hsize : elmnt.len = BitVec.ofNat 64 elmnt.buf.length) :
    ∃ x : Except Fault σ, ∃ N, ∀ n ≥ N, handleOscPacket H.toEnv (H.heap elmnt) n app oscImmediate
        (H.addr elmnt) elmnt.len = lift (x >>= fun state => .ok { app with state }) := by
  have hplaced := H.placed elmnt hlen
  rw [hbuf] at hplaced hlen
  obtain ⟨N, hN⟩ := packet_settles (handles_handleSpot H.toEnv (H.heap elmnt)) (.message rest) app
    oscImmediate (H.addr elmnt) hplaced hlen
  refine ⟨H.message (H.heap elmnt) (readerInitialize (H.addr elmnt) elmnt.len) elmnt.len app.state,
    N, fun n hn => ?_⟩
  have hrun := hN n hn
  rw [Packet.encode, ← hbuf, ← hsize] at hrun
  rw [hrun, Packet.place, List.foldlM_cons, handleSpot, if_pos rfl, Spot.len, ← hbuf, ← hsize]
  cases H.message (H.heap elmnt) (readerInitialize (H.addr elmnt) elmnt.len) elmnt.len app.state <;>
    rfl

/-- The loop ends at the end of the list and before an element that is not yet due. -/
lemma drain_stop {now : Timespec} {app : App σ}
    (h : ∀ e rest, app.list = e :: rest → drainDiff now e < 0) (ran : List Sched) (n : ℕ) :
    drainLoop H now (n + 1) app ran = .ok (app, ran) := by
  rw [drainLoop]
  cases hlist : app.list with
  | nil => rfl
  | cons e rest =>
    simp only [if_pos (h e rest hlist)]
    rfl

/-- One round: the head is due, and handling it changes nothing but the state. -/
lemma drain_round {now : Timespec} {app : App σ} {elmnt : Sched} {list : List Sched}
    (hlist : app.list = elmnt :: list) (hdue : ¬ drainDiff now elmnt < 0) {x : Except Fault σ} {n : ℕ}
    (hx : handleOscPacket H.toEnv (H.heap elmnt) n app oscImmediate (H.addr elmnt) elmnt.len =
      lift (x >>= fun state => .ok { app with state })) (ran : List Sched) :
    drainLoop H now (n + 1) app ran =
      lift x >>= fun state => drainLoop H now n { app with state, list } (ran ++ [elmnt]) := by
  rw [drainLoop, hlist]
  simp only [if_neg hdue]
  rw [hx]
  cases x with
  | error e => rfl
  | ok state =>
    change drainLoop H now n { app with state, list := schedNext elmnt app.list } _ = _
    rw [hlist, schedNext_head]
    rfl

/-- The drain of `app` ends, and whatever it returns is a drained schedule. -/
def Drains (H : Host σ) (now : Timespec) (app : App σ) (ran : List Sched) : Prop :=
  ∃ x, x ≠ starve ∧ DrainSettles H now app ran x ∧ ∀ app' ran', x = .ok (app', ran') →
    ∃ done, ran' = ran ++ done ∧ Drained now app app' done

lemma drains_stop {now : Timespec} {app : App σ}
    (h : ∀ e rest, app.list = e :: rest → drainDiff now e < 0) (ran : List Sched) :
    Drains H now app ran := by
  refine ⟨.ok (app, ran), ok_ne_starve _, ⟨1, fun n hn => ?_⟩, ?_⟩
  · obtain ⟨n, rfl⟩ : ∃ k, n = k + 1 := ⟨n - 1, by omega⟩
    exact drain_stop h ran n
  · rintro _ _ ⟨⟩
    exact ⟨[], (List.append_nil _).symm, rfl, rfl,
      fun e rest he => (drainDiff_neg now e).mp (h e rest he)⟩

/-- By induction on the list; an element of the schedule is handled as a message. -/
lemma drains_sorted (now : Timespec) {list : List Sched} {app : App σ} (h : Sorted app)
    (hlist : app.list = list) (ran : List Sched) : Drains H now app ran := by
  induction list generalizing app ran with
  | nil =>
    refine drains_stop (fun e rest he => ?_) ran
    rw [hlist] at he
    cases he
  | cons elmnt list ih =>
    by_cases hdue : drainDiff now elmnt < 0
    · refine drains_stop (fun e rest he => ?_) ran
      rw [hlist] at he
      cases he
      exact hdue
    · obtain ⟨rest, hbuf, hlen, hsize⟩ := h.bytes elmnt (by rw [hlist]; simp)
      obtain ⟨x, N, hN⟩ := drain_element H app hbuf hlen hsize
      cases x with
      | error e =>
        refine ⟨.error (some e), fault_ne_starve e, ⟨N + 1, fun n hn => ?_⟩, ?_⟩
        · obtain ⟨n, rfl⟩ : ∃ k, n = k + 1 := ⟨n - 1, by omega⟩
          rw [drain_round hlist hdue (hN n (by omega))]
          rfl
        · rintro _ _ ⟨⟩
      | ok state =>
        have hrest : Sorted { app with state, list } := by
          refine h.sublist ?_ rfl
          rw [hlist]
          exact List.sublist_cons_self elmnt list
        obtain ⟨x, hne, ⟨K, hK⟩, hx⟩ := ih hrest rfl (ran ++ [elmnt])
        refine ⟨x, hne, ⟨max N K + 1, fun n hn => ?_⟩, fun app' ran' hok => ?_⟩
        · obtain ⟨n, rfl⟩ : ∃ k, n = k + 1 := ⟨n - 1, by omega⟩
          rw [drain_round hlist hdue (hN n (by omega))]
          exact hK n (by omega)
        · obtain ⟨done, hran, hdone, hfresh, hstop⟩ := hx app' ran' hok
          refine ⟨elmnt :: done, ?_, ?_, hfresh, hstop⟩
          · rw [hran, List.append_assoc]
            rfl
          · rw [hlist, List.cons_append, ← hdone]

lemma drain_result (now : Timespec) (h : Sorted app) :
    ∃ x, Converges (fun fuel => drainLoop H now fuel app []) x ∧
      ∀ app' ran, x = .ok (app', ran) → Drained now app app' ran := by
  obtain ⟨x, hne, ⟨N, hN⟩, hx⟩ := drains_sorted (H := H) now h rfl []
  refine ⟨x, ⟨N, hN N le_rfl, hne⟩, fun app' ran hok => ?_⟩
  obtain ⟨done, hran, hdrained⟩ := hx app' ran hok
  rw [List.nil_append] at hran
  rwa [hran]

lemma sorted_drained {now : Timespec} {ran : List Sched} (h : Sorted app)
    (hd : Drained now app app' ran) : Sorted app' := by
  obtain ⟨hlist, hfresh, -⟩ := hd
  refine h.sublist ?_ hfresh
  rw [hlist]
  exact List.sublist_append_right ran app'.list

lemma sorted_step {event : BeatEvent} (h : Sorted app) (horder : InOrder H app event)
    (hstep : beatStep H app event app') : Sorted app' := by
  cases event with
  | packet p m a => exact sorted_packet h horder hstep
  | drain now ran =>
    obtain ⟨x, hx, hdrained⟩ := drain_result (H := H) now h
    have hok := hx.unique (drainLoop_chain H now app []) hstep
    exact sorted_drained h (hdrained app' ran hok)

/-- In every run whose packets bring their timed messages in the order they are due, a
drain ends, leaves nothing that is due, and has executed its elements by due time. -/
theorem drain_leaves_nothing_due (H : Host σ) (app₀ app : App σ) (hempty : app₀.list = [])
    (hrun : RunsTo (beatStep H) (InOrder H) app₀ app) (now : Timespec) :
    ∃ x, Converges (fun fuel => drainLoop H now fuel app []) x ∧
      ∀ app' ran, x = .ok (app', ran) →
        (∀ e ∈ app'.list, now.nanos < e.due.nanos) ∧ ran.Pairwise Before := by
  have hstart : Sorted app₀ := by
    refine ⟨?_, ?_, ?_, ?_⟩ <;> rw [hempty]
    · exact List.Pairwise.nil
    all_goals simp
  have hsorted : Sorted app := hrun.invariant hstart fun _ _ _ h hok hstep => sorted_step h hok hstep
  obtain ⟨x, hx, hdrained⟩ := drain_result (H := H) now hsorted
  refine ⟨x, hx, fun app' ran hok => ?_⟩
  obtain ⟨hlist, -, hstop⟩ := hdrained app' ran hok
  have horder := hsorted.order
  rw [hlist, List.pairwise_append] at horder
  refine ⟨fun e he => ?_, horder.1⟩
  cases hrest : app'.list with
  | nil =>
    rw [hrest] at he
    cases he
  | cons head rest =>
    have hhead := hstop head rest hrest
    have hpair := horder.2.1
    rw [hrest] at he hpair
    rcases List.mem_cons.mp he with rfl | he
    · exact hhead
    · exact hhead.trans_le ((List.pairwise_cons.mp hpair).1 e he).le

end Runs

section Examples

def plainHost : Host Unit where
  message _ _ _ _ := .ok ()
  malloc _ _ := true
  heap elmnt := image 0x10000 elmnt.buf
  addr _ := 0x10000
  placed elmnt h := placed_image (by
    have hbase : (0x10000 : Addr).toNat = 65536 := rfl
    omega)

/-- A message that is due `s` seconds after the start of 1970. -/
def timed (s : BitVec 64) : Packet := .bundle ((jan1970 + s) <<< 32) [.message [0x61]]

def afterTimed (app : App Unit) (s : BitVec 64) : App Unit :=
  schedOne app ((jan1970 + s) <<< 32) [slash, 0x61]

lemma timed_step (app : App Unit) {s : BitVec 64} (hs : (jan1970 + s) <<< 32 ≠ oscImmediate) :
    beatStep plainHost app (.packet (timed s) (image 0x10000 (timed s).encode) 0x10000)
      (afterTimed app s) := by
  have hlen : (timed s).encode.length = 22 := by
    simp [timed, Packet.encode, encodeElems, bundleTag]
  have hplaced : Placed (image 0x10000 (timed s).encode) 0x10000 (timed s).encode :=
    placed_image (by rw [hlen]; decide)
  refine ⟨hplaced, by rw [hlen]; decide, ?_⟩
  have hrun := handleOscPacket_place
    (handles_handleSpot plainHost.toEnv (image 0x10000 (timed s).encode)) (timed s) app
    oscImmediate 0x10000 hplaced (by rw [hlen]; decide)
  have hone : ((timed s).place oscImmediate 0x10000).foldlM
      (handleSpot plainHost.toEnv (image 0x10000 (timed s).encode)) app =
      .ok (afterTimed app s) := by
    simp only [timed, Packet.place, placeElems, List.append_nil, List.foldlM_cons, List.foldlM_nil,
      handleSpot, if_neg hs]
    rfl
  rwa [hone] at hrun

def idle : App Unit := ⟨(), [], 0⟩

theorem drain_leaves_nothing_due_timed :
    ∃ x, Converges (fun fuel =>
        drainLoop plainHost ⟨7, 0⟩ fuel (afterTimed (afterTimed idle 5) 10) []) x ∧
      ∀ app' ran, x = .ok (app', ran) →
        (∀ e ∈ app'.list, 7000000000 < e.due.nanos) ∧ ran.Pairwise Before := by
  have hfirst := timed_step idle (s := 5) (by decide)
  have hsecond := timed_step (afterTimed idle 5) (s := 10) (by decide)
  exact drain_leaves_nothing_due plainHost idle (afterTimed (afterTimed idle 5) 10) rfl
    ((RunsTo.refl.snoc (by decide) hfirst).snoc (by decide) hsecond) ⟨7, 0⟩

/-- A message due after 5 seconds waits behind one that is due after 10. -/
theorem early_message_waits :
    ¬ ∀ (H : Host Unit) (app₀ app : App Unit), app₀.list = [] →
      RunsTo (beatStep H) Free app₀ app → ∀ now app' ran,
        Converges (fun fuel => drainLoop H now fuel app []) (.ok (app', ran)) →
          (∀ e ∈ app'.list, now.nanos < e.due.nanos) ∧ ran.Pairwise Before := by
  intro h
  have hfirst := timed_step idle (s := 10) (by decide)
  have hsecond := timed_step (afterTimed idle 10) (s := 5) (by decide)
  have hdrain : Converges (fun fuel => drainLoop plainHost ⟨7, 0⟩ fuel
      (afterTimed (afterTimed idle 10) 5) []) (.ok (afterTimed (afterTimed idle 10) 5, [])) := by
    refine ⟨1, ?_, ok_ne_starve _⟩
    have hlist : (afterTimed (afterTimed idle 10) 5).list =
        [⟨0, ⟨10, 0⟩, 2, [slash, 0x61]⟩, ⟨1, ⟨5, 0⟩, 2, [slash, 0x61]⟩] := by decide
    have hdue : drainDiff ⟨7, 0⟩ ⟨0, ⟨10, 0⟩, 2, [slash, 0x61]⟩ < 0 :=
      (drainDiff_neg _ _).mpr (by decide)
    simp only [drainLoop, hlist, if_pos hdue]
    rfl
  have hlate := (h plainHost idle _ rfl ((RunsTo.refl.snoc trivial hfirst).snoc trivial hsecond)
    ⟨7, 0⟩ _ _ hdrain).1 ⟨1, ⟨5, 0⟩, 2, [slash, 0x61]⟩ (by decide)
  exact absurd hlate (by decide)

end Examples

end Osc2FtdiDmx.ScheduleDrain
