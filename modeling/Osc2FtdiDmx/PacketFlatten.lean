import Osc2FtdiDmx.PacketCalls
import Osc2FtdiDmx.ReaderSpecs

/-! Well-formed packets as trees, their encoding, and the refinement of the packet
handler to a left-to-right pass over the flattened tree. -/
namespace Osc2FtdiDmx.PacketFlatten
open BytesEndian OscMemory OscReader ReaderSpecs FuelledRuns PacketHandler PacketCalls

/-- A message is any byte string that starts with a slash. -/
inductive Packet
  | message (rest : List Byte)
  | bundle (timetag : BitVec 64) (elems : List Packet)

mutual

def Packet.encode : Packet → List Byte
  | .message rest => slash :: rest
  | .bundle timetag elems => bundleTag ++ (bytesBE 8 timetag.toNat ++ encodeElems elems)

def encodeElems : List Packet → List Byte
  | [] => []
  | p :: ps => bytesBE 4 p.encode.length ++ (p.encode ++ encodeElems ps)

end

mutual

/-- The messages from left to right, each with the timetag of its innermost bundle. -/
def Packet.flatten (t : BitVec 64) : Packet → List (BitVec 64 × List Byte)
  | .message rest => [(t, slash :: rest)]
  | .bundle timetag elems => flattenElems timetag elems

def flattenElems (t : BitVec 64) : List Packet → List (BitVec 64 × List Byte)
  | [] => []
  | p :: ps => p.flatten t ++ flattenElems t ps

end

/-- One message of a packet in memory: its timetag, its address and its bytes. -/
structure Spot where
  timetag : BitVec 64
  addr : Addr
  bytes : List Byte

def Spot.len (s : Spot) : Addr := BitVec.ofNat 64 s.bytes.length

mutual

/-- `flatten` with the address of each message, for the packet at `a`. -/
def Packet.place (t : BitVec 64) (a : Addr) : Packet → List Spot
  | .message rest => [⟨t, a, slash :: rest⟩]
  | .bundle timetag elems => placeElems timetag (a + 8 + 8) elems

def placeElems (t : BitVec 64) (a : Addr) : List Packet → List Spot
  | [] => []
  | p :: ps => p.place t (a + 4) ++ placeElems t (a + 4 + BitVec.ofNat 64 p.encode.length) ps

end

mutual

theorem place_flatten : ∀ (p : Packet) (t : BitVec 64) (a : Addr),
    (p.place t a).map (fun s => (s.timetag, s.bytes)) = p.flatten t
  | .message rest, t, a => by simp [Packet.place, Packet.flatten]
  | .bundle timetag elems, t, a => by
      rw [Packet.place, Packet.flatten, placeElems_flatten]

theorem placeElems_flatten : ∀ (ps : List Packet) (t : BitVec 64) (a : Addr),
    (placeElems t a ps).map (fun s => (s.timetag, s.bytes)) = flattenElems t ps
  | [], t, a => by simp [placeElems, flattenElems]
  | p :: ps, t, a => by
      rw [placeElems, flattenElems, List.map_append, place_flatten, placeElems_flatten]

end

variable {σ : Type}

def schedElement (app : App σ) (t : BitVec 64) (bytes : List Byte) : Sched :=
  ⟨app.fresh, schedDue t, BitVec.ofNat 64 bytes.length, bytes⟩

def schedOne (app : App σ) (t : BitVec 64) (bytes : List Byte) : App σ :=
  { app with list := schedAppend app.list (schedElement app t bytes), fresh := app.fresh + 1 }

/-- One message in memory: run it now, or put one element with its bytes on the
schedule if there is room for it. -/
def handleSpot (E : Env σ) (m : Memory) (app : App σ) (s : Spot) : Except Fault (App σ) :=
  if s.timetag = oscImmediate then do
    let state ← E.message m (readerInitialize s.addr s.len) s.len app.state
    pure { app with state }
  else if E.malloc app.fresh (sizeofSched + s.len) then
    pure (schedOne app s.timetag s.bytes)
  else pure { app with fresh := app.fresh + 1 }

/-- Every insertion puts exactly the new element on the schedule. -/
theorem schedAppend_perm (list : List Sched) (elmnt : Sched) :
    (schedAppend list elmnt).Perm (elmnt :: list) := by
  induction list with
  | nil => exact List.Perm.refl _
  | cons ptr list ih =>
    rw [schedAppend]
    split_ifs with h
    · exact List.Perm.refl _
    · exact (ih.cons ptr).trans (List.Perm.swap elmnt ptr list)

/-- The insertion leaves the waiting elements in their order. -/
theorem schedAppend_sublist (list : List Sched) (elmnt : Sched) :
    list.Sublist (schedAppend list elmnt) := by
  induction list with
  | nil => exact List.nil_sublist _
  | cons ptr list ih =>
    rw [schedAppend]
    split_ifs with h
    · exact List.sublist_cons_self elmnt _
    · exact ih.cons_cons ptr

section Elements
variable {E : Env σ} {n : ℕ} {tb : BitVec 64 × List Byte} {msgs : List (BitVec 64 × List Byte)}

/-- The messages that have to wait. -/
def waiters (msgs : List (BitVec 64 × List Byte)) : List (BitVec 64 × List Byte) :=
  msgs.filter (·.1 ≠ oscImmediate)

/-- One element for each of them, with its bytes and its length. Each is a call of `malloc`,
and these are numbered from `n`. -/
def elements (n : ℕ) (msgs : List (BitVec 64 × List Byte)) : List Sched :=
  ((waiters msgs).zipIdx n).map fun tbn =>
    ⟨tbn.2, schedDue tbn.1.1, BitVec.ofNat 64 tbn.1.2.length, tbn.1.2⟩

/-- The elements whose call of `malloc` got a block. -/
def granted (E : Env σ) (n : ℕ) (msgs : List (BitVec 64 × List Byte)) : List Sched :=
  (elements n msgs).filter fun e => E.malloc e.id (sizeofSched + e.len)

lemma waiters_now (h : tb.1 = oscImmediate) : waiters (tb :: msgs) = waiters msgs := by
  simp [waiters, h]

lemma waiters_later (h : tb.1 ≠ oscImmediate) : waiters (tb :: msgs) = tb :: waiters msgs := by
  simp [waiters, h]

lemma granted_now (h : tb.1 = oscImmediate) : granted E n (tb :: msgs) = granted E n msgs := by
  simp only [granted, elements, waiters_now h]

lemma granted_later (h : tb.1 ≠ oscImmediate) : granted E n (tb :: msgs) =
    (if E.malloc n (sizeofSched + BitVec.ofNat 64 tb.2.length) then
      [⟨n, schedDue tb.1, BitVec.ofNat 64 tb.2.length, tb.2⟩] else []) ++
        granted E (n + 1) msgs := by
  simp only [granted, elements, waiters_later h, List.zipIdx_cons, List.map_cons, List.filter_cons]
  split <;> rfl

/-- What these messages do to the schedule. -/
structure Takes (E : Env σ) (app app' : App σ) (msgs : List (BitVec 64 × List Byte)) : Prop where
  list : app'.list.Perm (app.list ++ granted E app.fresh msgs)
  waiting : app.list.Sublist app'.list
  fresh : app'.fresh = app.fresh + (waiters msgs).length

lemma takes_nil (app : App σ) : Takes E app app [] := by
  refine ⟨?_, List.Sublist.refl _, rfl⟩
  simp [granted, elements, waiters]

/-- A message for now leaves the schedule alone. -/
lemma takes_now (tb : BitVec 64 × List Byte) (h : tb.1 = oscImmediate) (app : App σ) (state : σ) :
    Takes E app { app with state } [tb] := by
  refine ⟨?_, List.Sublist.refl _, ?_⟩
  · rw [granted_now h]
    simp [granted, elements, waiters]
  · rw [waiters_now h]
    rfl

/-- A message for later gets one element. -/
lemma takes_later (tb : BitVec 64 × List Byte) (h : tb.1 ≠ oscImmediate) (app : App σ)
    (hroom : E.malloc app.fresh (sizeofSched + BitVec.ofNat 64 tb.2.length) = true) :
    Takes E app (schedOne app tb.1 tb.2) [tb] := by
  refine ⟨?_, schedAppend_sublist _ _, ?_⟩
  · rw [granted_later h, if_pos hroom]
    exact (schedAppend_perm _ _).trans (List.perm_append_singleton _ _).symm
  · rw [waiters_later h]
    rfl

lemma Takes.cons {app mid app' : App σ} (h : Takes E app mid [tb]) (h' : Takes E mid app' msgs) :
    Takes E app app' (tb :: msgs) := by
  have hlist := h.list
  have hfresh := h.fresh
  refine ⟨h'.list.trans ?_, h.waiting.trans h'.waiting, ?_⟩
  · by_cases ht : tb.1 = oscImmediate
    · rw [waiters_now ht] at hfresh
      rw [granted_now ht] at hlist ⊢
      simpa [granted, elements, waiters, hfresh] using hlist.append_right (granted E mid.fresh msgs)
    · rw [waiters_later ht] at hfresh
      rw [granted_later ht] at hlist ⊢
      simpa [granted, elements, waiters, hfresh] using hlist.append_right (granted E mid.fresh msgs)
  · rw [h'.fresh, hfresh, waiters, waiters, waiters, Nat.add_assoc, ← List.length_append,
      ← List.filter_append]
    rfl

/-- By induction on the messages, if each of them takes its own element. -/
lemma takes_foldlM {α : Type} {step : App σ → α → Except Fault (App σ)}
    (view : α → BitVec 64 × List Byte)
    (hstep : ∀ app x app', step app x = .ok app' → Takes E app app' [view x])
    {xs : List α} {app app' : App σ} (h : xs.foldlM step app = .ok app') :
    Takes E app app' (xs.map view) := by
  induction xs generalizing app with
  | nil =>
    cases h
    exact takes_nil _
  | cons x xs ih =>
    rw [List.foldlM_cons] at h
    obtain ⟨mid, hmid, h⟩ := bind_eq_ok.mp h
    exact (hstep _ x mid hmid).cons (ih h)

end Elements

/-- `step` is what the handler does with each message in memory. -/
def Handles (E : Env σ) (m : Memory) (step : App σ → Spot → Except Fault (App σ)) : Prop :=
  ∀ app t a rest, Placed m a (slash :: rest) → (slash :: rest).length < 2 ^ 31 →
    handleMessage E m app t (readerInitialize a (BitVec.ofNat 64 (slash :: rest).length)) a
        (BitVec.ofNat 64 (slash :: rest).length) =
      step app ⟨t, a, slash :: rest⟩

theorem handles_handleSpot (E : Env σ) (m : Memory) : Handles E m (handleSpot E m) := by
  intro app t a rest h hsize
  have hover := over_readerInit h
  have hlen : (BitVec.ofNat 64 (slash :: rest).length).toNat = (slash :: rest).length := by
    rw [BitVec.toNat_ofNat, Nat.mod_eq_of_lt (by omega)]
  rw [handleMessage, isMessage_message hover, ok_bind, if_pos rfl, handleSpot]
  by_cases ht : t = oscImmediate
  · rw [if_pos ht, if_pos ht]
    rfl
  · rw [if_neg ht, if_neg ht, schedMessage]
    have hwrap : (sizeofSched + BitVec.ofNat 64 (slash :: rest).length).toNat =
        sizeofSched.toNat + (BitVec.ofNat 64 (slash :: rest).length).toNat := by
      have hhead : sizeofSched.toNat = 32 := rfl
      rw [BitVec.toNat_add, hlen, hhead, Nat.mod_eq_of_lt (by omega)]
    rw [copyMessage, if_pos hwrap, hlen, loads_all h.holds, ok_bind]
    rfl

/-- The item that a well-formed element of the bundle is read into. -/
def itemOf (itm : Item) (r : Reader) (p : Packet) : Item :=
  { itm with size := BitVec.ofNat 32 p.encode.length, body := r.ptr + 4 }

theorem itemOf_extent (itm : Item) (r : Reader) {p : Packet} (h : p.encode.length < 2 ^ 31) :
    (itemOf itm r p).extent = BitVec.ofNat 64 p.encode.length := by
  have hsize : (BitVec.ofNat 32 p.encode.length).toNat = p.encode.length := by
    rw [BitVec.toNat_ofNat, Nat.mod_eq_of_lt (by omega)]
  apply BitVec.eq_of_toNat_eq
  change ((BitVec.ofNat 32 p.encode.length).signExtend 64).toNat = _
  rw [signExtend_toNat (by omega), hsize, BitVec.toNat_ofNat, Nat.mod_eq_of_lt (by omega)]

/-- Under every sufficient budget the packet at `a` has the given result. -/
def PacketSettles (E : Env σ) (m : Memory) (app : App σ) (t : BitVec 64) (buf len : Addr)
    (x : Fuelled Fault (App σ)) : Prop :=
  ∃ N, ∀ n ≥ N, handleOscPacket E m n app t buf len = x

def ItemsSettle (E : Env σ) (m : Memory) (app : App σ) (r : Reader) (itm : Item)
    (x : Fuelled Fault (App σ)) : Prop :=
  ∃ N, ∀ a ≥ N, ∀ b ≥ N, itemsFrom E m a b app r itm = x

section Settling
variable {E : Env σ} {m : Memory} {step : App σ → Spot → Except Fault (App σ)}

theorem items_settle_nil {app : App σ} {r : Reader} {itm : Item} (h : Over m r []) :
    ItemsSettle E m app r itm (lift ([].foldlM step app)) := by
  refine ⟨0, fun a _ b _ => ?_⟩
  rw [itemsFrom, itemRaw_end h]
  rfl

theorem items_settle_cons {app : App σ} {r : Reader} {itm : Item} {p : Packet} {ps : List Packet}
    (h : Over m r (encodeElems (p :: ps))) (hend : itm.endPtr = r.endPtr)
    (hsize : (encodeElems (p :: ps)).length < 2 ^ 31)
    (hp : PacketSettles E m app itm.timetag (r.ptr + 4) (BitVec.ofNat 64 p.encode.length)
      (lift ((p.place itm.timetag (r.ptr + 4)).foldlM step app)))
    (hps : ∀ app, ItemsSettle E m app
      ((r.advance 4).advance (BitVec.ofNat 64 p.encode.length)) (itemOf itm r p)
      (lift ((placeElems itm.timetag (r.ptr + 4 + BitVec.ofNat 64 p.encode.length) ps).foldlM
        step app))) :
    ItemsSettle E m app r itm
      (lift ((placeElems itm.timetag r.ptr (p :: ps)).foldlM step app)) := by
  rw [encodeElems] at h hsize
  simp only [List.length_append, bytesBE_length] at hsize
  have hraw : readerItemRaw itm m r = .ok (some (itemOf itm r p), r.advance 4) :=
    itemRaw_over (by omega) rfl h
  have hover : Over m (r.advance 4) (p.encode ++ encodeElems ps) := h.drop (by simp)
  have hext := itemOf_extent itm r (p := p) (by omega)
  have hnot : readerItemIsEnd (r.advance 4) (itemOf itm r p) = false := by
    have hstop := hover.stop
    rw [readerItemIsEnd, decide_eq_false_iff_not, BitVec.lt_def]
    change ¬ itm.endPtr.toNat < (r.advance 4).ptr.toNat
    rw [hend]
    rw [Reader.advance_endPtr] at hstop
    omega
  have hcall : Converges ((itemCall app (itemOf itm r p)).run E m)
      (lift ((p.place itm.timetag (r.ptr + 4)).foldlM step app)) := by
    obtain ⟨N, hN⟩ := hp
    refine ⟨N, ?_, lift_ne_starve _⟩
    rw [Call.run, itemCall, hext]
    exact hN N le_rfl
  have hloop : LoopSettles E m app (r.advance 4) (itemOf itm r p)
      (lift ((placeElems itm.timetag r.ptr (p :: ps)).foldlM step app)) := by
    rw [placeElems, List.foldlM_append, lift_bind]
    cases hres : (p.place itm.timetag (r.ptr + 4)).foldlM step app with
    | error e =>
      rw [hres] at hcall
      exact loop_settles_fault hnot hcall
    | ok app' =>
      rw [hres] at hcall
      refine loop_settles_rest hnot hcall ?_
      rw [hext]
      exact hps app'
  obtain ⟨N, hN⟩ := hloop
  refine ⟨N, fun a ha b hb => ?_⟩
  rw [itemsFrom, hraw]
  exact hN a ha b hb

theorem packet_settles_message (hstep : Handles E m step) {app : App σ} {t : BitVec 64}
    {rest : List Byte} {a : Addr}
    (h : Placed m a (Packet.message rest).encode)
    (hsize : (Packet.message rest).encode.length < 2 ^ 31) :
    PacketSettles E m app t a (BitVec.ofNat 64 (Packet.message rest).encode.length)
      (lift (((Packet.message rest).place t a).foldlM step app)) := by
  rw [Packet.encode] at h hsize ⊢
  refine ⟨1, fun n hn => ?_⟩
  obtain ⟨n, rfl⟩ : ∃ k, n = k + 1 := ⟨n - 1, by omega⟩
  have hmsg := hstep app t a rest h hsize
  rw [handleOscPacket, isBundle_message (over_readerInit h)]
  change lift (handleMessage E m app t _ a _) = _
  rw [hmsg, Packet.place, List.foldlM_cons]
  cases step app ⟨t, a, slash :: rest⟩ <;> rfl

theorem packet_settles_bundle {app : App σ} {t timetag : BitVec 64} {elems : List Packet} {a : Addr}
    (h : Placed m a (Packet.bundle timetag elems).encode)
    (hitems : ∀ r itm, Over m r (encodeElems elems) → itm.endPtr = r.endPtr →
      itm.timetag = timetag → r.ptr = a + 8 + 8 →
      ItemsSettle E m app r itm (lift ((placeElems timetag (a + 8 + 8) elems).foldlM step app))) :
    PacketSettles E m app t a (BitVec.ofNat 64 (Packet.bundle timetag elems).encode.length)
      (lift (((Packet.bundle timetag elems).place t a).foldlM step app)) := by
  rw [Packet.encode] at h ⊢
  have hover := over_readerInit h
  have hbegin := bundleBegin_over hover rfl
  have hfields : Over m
      (((readerInitialize a (BitVec.ofNat 64 _)).advance 8).advance 8) (encodeElems elems) :=
    (hover.drop rfl).drop (by simp)
  obtain ⟨N, hN⟩ := hitems _ ⟨0, 0, timetag, _⟩ hfields rfl rfl rfl
  refine ⟨N + 1, fun n hn => ?_⟩
  obtain ⟨n, rfl⟩ : ∃ k, n = k + 1 := ⟨n - 1, by omega⟩
  simp only [handleOscPacket, isBundle_bundle hover, liftM_eq_lift, lift_ok, ok_bind, if_pos]
  rw [handleOscBundle, hbegin]
  exact hN n (by omega) n (by omega)

mutual

theorem packet_settles (hstep : Handles E m step) :
    ∀ (p : Packet) (app : App σ) (t : BitVec 64) (a : Addr),
    Placed m a p.encode → p.encode.length < 2 ^ 31 →
    PacketSettles E m app t a (BitVec.ofNat 64 p.encode.length)
      (lift ((p.place t a).foldlM step app))
  | .message rest, app, t, a, h, hsize => packet_settles_message hstep h hsize
  | .bundle timetag elems, app, t, a, h, hsize =>
      packet_settles_bundle h fun r itm hover hend htime hptr => by
        subst htime
        rw [← hptr]
        refine items_settle hstep elems app r itm hover hend ?_
        rw [Packet.encode] at hsize
        simp only [List.length_append] at hsize
        omega

theorem items_settle (hstep : Handles E m step) :
    ∀ (ps : List Packet) (app : App σ) (r : Reader) (itm : Item),
    Over m r (encodeElems ps) → itm.endPtr = r.endPtr → (encodeElems ps).length < 2 ^ 31 →
    ItemsSettle E m app r itm (lift ((placeElems itm.timetag r.ptr ps).foldlM step app))
  | [], app, r, itm, h, _, _ => items_settle_nil h
  | p :: ps, app, r, itm, h, hend, hsize => by
      have hfull := hsize
      have hover := h
      rw [encodeElems] at hsize hover
      simp only [List.length_append, bytesBE_length] at hsize
      have hbody : Over m (r.advance 4) (p.encode ++ encodeElems ps) := hover.drop (by simp)
      have hplaced : Placed m (r.ptr + 4) p.encode := by
        have hstop := hbody.stop
        have hbelow := hbody.below
        rw [List.length_append, Reader.advance_ptr] at hstop
        exact ⟨(holds_append.mp hbody.holds).1, by omega⟩
      have hrest : Over m ((r.advance 4).advance (BitVec.ofNat 64 p.encode.length))
          (encodeElems ps) := by
        apply hbody.drop
        rw [BitVec.toNat_ofNat, Nat.mod_eq_of_lt (by omega)]
      exact items_settle_cons h hend hfull
        (packet_settles hstep p app itm.timetag (r.ptr + 4) hplaced (by omega))
        fun app' => items_settle hstep ps app' _ (itemOf itm r p) hrest hend (by omega)

end

/-- A well-formed packet is handled message by message, at their places in memory. -/
theorem handleOscPacket_place (hstep : Handles E m step) (p : Packet) (app : App σ)
    (t : BitVec 64) (a : Addr) (h : Placed m a p.encode) (hsize : p.encode.length < 2 ^ 31) :
    Converges (fun fuel => handleOscPacket E m fuel app t a (BitVec.ofNat 64 p.encode.length))
      (lift ((p.place t a).foldlM step app)) := by
  obtain ⟨N, hN⟩ := packet_settles hstep p app t a h hsize
  exact ⟨N, hN N le_rfl, lift_ne_starve _⟩

end Settling

section Bytes
variable (f : List Byte → σ → Except Fault σ)

/-- The environment in which a message is handled by `f`, a function of its bytes
and the state, and no allocation fails. -/
def bytesEnv : Env σ where
  message m r len state := do
    let bytes ← loads m r.ptr len.toNat
    f bytes state
  malloc _ _ := true

/-- One message: run it now, or put one element with its bytes on the schedule. -/
def processOne (app : App σ) (tb : BitVec 64 × List Byte) : Except Fault (App σ) :=
  if tb.1 = oscImmediate then do
    let state ← f tb.2 app.state
    pure { app with state }
  else pure (schedOne app tb.1 tb.2)

def process (app : App σ) (msgs : List (BitVec 64 × List Byte)) : Except Fault (App σ) :=
  msgs.foldlM (processOne f) app

theorem handles_processOne (m : Memory) :
    Handles (bytesEnv f) m fun app s => processOne f app (s.timetag, s.bytes) := by
  intro app t a rest h hsize
  rw [handles_handleSpot (bytesEnv f) m app t a rest h hsize]
  set len := BitVec.ofNat 64 (slash :: rest).length with hlen
  have hload : (bytesEnv f).message m (readerInitialize a len) len app.state =
      f (slash :: rest) app.state := by
    change (do let bytes ← loads m a len.toNat; f bytes app.state) = _
    rw [hlen, BitVec.toNat_ofNat, Nat.mod_eq_of_lt (by omega), loads_all h.holds, ok_bind]
  rw [handleSpot, Spot.len, ← hlen, hload]
  rfl

/-- What the messages have done once all are processed: those for now ran one after the
other on their bytes, each of the others has one element on the schedule. -/
structure Processed (app app' : App σ) (msgs : List (BitVec 64 × List Byte)) : Prop where
  state : (msgs.filter (·.1 = oscImmediate)).foldlM (fun state tb => f tb.2 state) app.state =
    .ok app'.state
  list : app'.list.Perm (app.list ++ elements app.fresh msgs)
  waiting : app.list.Sublist app'.list

lemma granted_bytesEnv (n : ℕ) (msgs : List (BitVec 64 × List Byte)) :
    granted (bytesEnv f) n msgs = elements n msgs := by
  simp [granted, bytesEnv]

lemma takes_processOne {app app' : App σ} {tb : BitVec 64 × List Byte}
    (h : processOne f app tb = .ok app') : Takes (bytesEnv f) app app' [tb] := by
  rw [processOne] at h
  split_ifs at h with ht
  · obtain ⟨state, -, h⟩ := bind_eq_ok.mp h
    cases h
    exact takes_now tb ht app state
  · cases h
    exact takes_later tb ht app rfl

/-- By induction on the messages; those that wait leave the state alone. -/
lemma process_state {msgs : List (BitVec 64 × List Byte)} {app app' : App σ}
    (h : process f app msgs = .ok app') :
    (msgs.filter (·.1 = oscImmediate)).foldlM (fun state tb => f tb.2 state) app.state =
      .ok app'.state := by
  induction msgs generalizing app with
  | nil =>
    cases h
    rfl
  | cons tb msgs ih =>
    rw [process, List.foldlM_cons] at h
    obtain ⟨mid, hmid, h⟩ := bind_eq_ok.mp h
    have hrest := ih h
    rw [processOne] at hmid
    split_ifs at hmid with ht
    · obtain ⟨state, hstate, hmid⟩ := bind_eq_ok.mp hmid
      cases hmid
      rw [List.filter_cons_of_pos (by simpa using ht), List.foldlM_cons, hstate]
      exact hrest
    · cases hmid
      rw [List.filter_cons_of_neg (by simpa using ht)]
      exact hrest

lemma process_processed {msgs : List (BitVec 64 × List Byte)} {app app' : App σ}
    (h : process f app msgs = .ok app') : Processed f app app' msgs := by
  have htakes := takes_foldlM id (fun _ _ _ => takes_processOne f) h
  rw [List.map_id] at htakes
  refine ⟨process_state f h, ?_, htakes.waiting⟩
  rw [← granted_bytesEnv f]
  exact htakes.list

/-- Handling an encoded packet is the left-to-right pass over its flattened tree, for
every handler of message bytes, every schedule and every placement in memory. The pass
runs the messages for now and gives every other message one element of its own. -/
theorem handleOscPacket_flatten (p : Packet) (app : App σ) (t : BitVec 64) (m : Memory) (a : Addr)
    (h : Placed m a p.encode) (hsize : p.encode.length < 2 ^ 31) :
    Converges (fun fuel =>
        handleOscPacket (bytesEnv f) m fuel app t a (BitVec.ofNat 64 p.encode.length))
      (lift (process f app (p.flatten t))) ∧
    ∀ app', process f app (p.flatten t) = .ok app' → Processed f app app' (p.flatten t) := by
  have hrun := handleOscPacket_place (handles_processOne f m) p app t a h hsize
  refine ⟨?_, fun app' hok => process_processed f hok⟩
  rwa [process, ← place_flatten p t a, List.foldlM_map]

/-- An empty bundle and a message that is due later, in a bundle for now. -/
def nestedPacket : Packet :=
  .bundle oscImmediate [.bundle 7 [], .message [0x61], .bundle (jan1970 <<< 32) [.message [0x62]]]

def logBytes (bytes : List Byte) (log : List (List Byte)) : Except Fault (List (List Byte)) :=
  .ok (log ++ [bytes])

/-- What waits is due nine seconds and five nanoseconds after the start of 1970. -/
def waitingLog : App (List (List Byte)) := ⟨[], [⟨0, ⟨9, 5⟩, 2, [slash, 0x63]⟩], 1⟩

theorem handleOscPacket_flatten_nested :
    Converges (fun fuel => handleOscPacket (bytesEnv logBytes) (image 0x1000 nestedPacket.encode)
        fuel waitingLog oscImmediate 0x1000 (BitVec.ofNat 64 nestedPacket.encode.length))
      (.ok ⟨[[slash, 0x61]],
        [⟨1, ⟨0, 0⟩, 2, [slash, 0x62]⟩, ⟨0, ⟨9, 5⟩, 2, [slash, 0x63]⟩], 2⟩) ∧
    Processed logBytes waitingLog ⟨[[slash, 0x61]],
        [⟨1, ⟨0, 0⟩, 2, [slash, 0x62]⟩, ⟨0, ⟨9, 5⟩, 2, [slash, 0x63]⟩], 2⟩
      [(oscImmediate, [slash, 0x61]), (jan1970 <<< 32, [slash, 0x62])] := by
  have h := handleOscPacket_flatten logBytes nestedPacket waitingLog oscImmediate
    (image 0x1000 nestedPacket.encode) 0x1000 (placed_image (by decide)) (by decide)
  exact ⟨h.1, h.2 _ rfl⟩

end Bytes

end Osc2FtdiDmx.PacketFlatten
