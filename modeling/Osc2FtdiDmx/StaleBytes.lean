import Osc2FtdiDmx.OwnBytes
import Osc2FtdiDmx.SlashSurroundings
import Osc2FtdiDmx.ScheduleOrder

/-! When the bytes around a packet matter. An empty part at the end of the packet is a
message or not by the byte behind the packet, and a string without an end in the packet
goes on behind it. -/
namespace Osc2FtdiDmx.StaleBytes
open BytesEndian OscMemory OscReader Get ReaderSpecs FuelledRuns SlotStore OscTree PacketHandler
open PacketCalls PacketRanges MessageRefusal PacketSurroundings MessageSurroundings
open TreeWalk SlashSurroundings OwnBytes ScheduleOrder

/-- Runs with bytes around the packet of which one faults, or of which two end with
schedules of different lengths and the cursor at the end of the packet. -/
def Broken {σ : Type} (stop : Prop) (run : (Addr → Byte) → Fuelled Fault (App σ) → Prop) : Prop :=
  (∃ out e, run out (.error (some e))) ∨
    stop ∧ ∃ out out' app app', run out (.ok app) ∧ run out' (.ok app') ∧
      app'.list.length = app.list.length + 1

lemma Broken.imp {σ : Type} {stop stop' : Prop}
    {run run' : (Addr → Byte) → Fuelled Fault (App σ) → Prop} (h : Broken stop run)
    (hstop : stop → stop') (hrun : ∀ out x, x ≠ starve → run out x → run' out x) :
    Broken stop' run' := by
  rcases h with ⟨out, e, h⟩ | ⟨hend, out, out', app, app', h, h', hlen⟩
  · exact Or.inl ⟨out, e, hrun _ _ (fault_ne_starve e) h⟩
  · exact Or.inr ⟨hstop hend, out, out', app, app', hrun _ _ (ok_ne_starve app) h,
      hrun _ _ (ok_ne_starve app') h', hlen⟩

variable {pm : List Byte → List Byte → Bool} {malloc : ℕ → Addr → Bool} {base : Addr} {bs : List Byte}
variable {p : Part} {r : Reader} {itm : Item} {app app₀ : App State}

/-- The part ends where the packet does. -/
def AtEnd (base : Addr) (bs : List Byte) (p : Part) : Prop :=
  p.buf.toNat + p.len.toNat = base.toNat + bs.length

def CallBroken (pm : List Byte → List Byte → Bool) (malloc : ℕ → Addr → Bool) (base : Addr)
    (bs : List Byte) (p : Part) (app : App State) : Prop :=
  Broken (AtEnd base bs p) fun out => Converges ((p.call app).run (oscEnv pm malloc)
    (around base bs out))

def LoopBroken (pm : List Byte → List Byte → Bool) (malloc : ℕ → Addr → Bool) (base : Addr)
    (bs : List Byte) (p : Part) (r : Reader) (itm : Item) (app : App State) : Prop :=
  Broken (AtEnd base bs p) fun out => LoopSettles (oscEnv pm malloc) (around base bs out) app r itm

/-- A message that is run now among slashes faults if the message handler does. -/
lemma now_faults (hslash : load (slashes base bs) p.buf = .ok slash)
    (hnow : p.timetag = oscImmediate)
    (h : ∀ state, handleOscMessage pm (slashes base bs) p.reader p.len app.state ≠ .ok state) :
    CallBroken pm malloc base bs p app := by
  cases hrun : handleOscMessage pm (slashes base bs) p.reader p.len app.state with
  | ok state => exact absurd hrun (h state)
  | error e =>
    have hmsg : (oscEnv pm malloc).message (slashes base bs) p.reader p.len app.state = .error e :=
      hrun
    have hmessage : readerIsMessage (slashes base bs) p.reader = .ok true := isMessage_slash hslash
    refine Or.inl ⟨fun _ => slash, e, 1, ?_, fault_ne_starve e⟩
    change (p.call app).run (oscEnv pm malloc) (slashes base bs) 1 = _
    rw [run_message (c := p.call app) (isBundle_slash hslash)]
    change lift (handleMessage _ (slashes base bs) app p.timetag p.reader p.buf p.len) = _
    rw [handleMessage, hmessage, ok_bind, if_pos rfl, if_pos hnow, hmsg]
    rfl

/-- Behind the packet the byte is whatever was there. -/
lemma around_end (out : Addr → Byte) {q : Addr} (hq : base.toNat + bs.length = q.toNat) :
    load (around base bs out) q = .ok (out q) := by
  have hout : bs.length ≤ (q - base).toNat := by
    rw [BitVec.toNat_sub_of_le (BitVec.le_def.mpr (by omega))]
    omega
  rw [load, around, List.getD_eq_default _ _ hout]

/-- An empty part at the end of the packet is an empty message if a slash follows. -/
lemma end_broken (hp : Placed base bs p) (hend : base.toNat + bs.length = p.buf.toNat)
    (hroom : ∀ n, malloc n sizeofSched = true) (app : App State) :
    CallBroken pm malloc base bs p app := by
  have hupper := hp.upper
  have hlen : p.len = 0 := BitVec.eq_of_toNat_eq (by change p.len.toNat = 0; omega)
  have hslash : load (slashes base bs) p.buf = .ok slash := around_end _ hend
  by_cases hnow : p.timetag = oscImmediate
  · refine now_faults hslash hnow fun state hrun => ?_
    obtain ⟨arg, r, hbegin, -⟩ := handled_some hrun
    obtain ⟨-, hpath, -⟩ := messageBegin_some hbegin
    obtain ⟨path, hpath⟩ : ∃ path, Text (slashes base bs) p.buf path := hpath
    have hstrlen := strlen_holds hpath.noNul hpath.holds hpath.below
    have hin := (slashes_strlenFrom hp.lower (by omega) hstrlen).2
    omega
  · have hzero : load (around base bs fun _ => 0) p.buf = .ok 0 := around_end _ hend
    have hquiet : Converges ((p.call app).run (oscEnv pm malloc) (around base bs fun _ => 0))
        (.ok app) := by
      have hfalse : readerIsBundle (around base bs fun _ => 0) p.reader = .ok false := by
        rw [readerIsBundle, bundleTag, strncmpEq]
        change (load _ p.buf >>= _) = _
        rw [hzero]
        rfl
      exact ⟨1, run_other (c := p.call app) hfalse (isMessage_other hzero (by decide)) 0,
        ok_ne_starve app⟩
    have hsched : Converges ((p.call app).run (oscEnv pm malloc) (slashes base bs))
        (.ok { app with
          list := schedAppend app.list ⟨app.fresh, schedDue p.timetag, p.len, []⟩
          fresh := app.fresh + 1 }) := by
      refine ⟨1, ?_, ok_ne_starve _⟩
      have hmessage : readerIsMessage (slashes base bs) p.reader = .ok true :=
        isMessage_slash hslash
      have hmalloc : (oscEnv pm malloc).malloc app.fresh (sizeofSched + p.len) = true := by
        rw [hlen]
        exact hroom _
      rw [run_message (c := p.call app) (isBundle_slash hslash)]
      change lift (handleMessage _ (slashes base bs) app p.timetag p.reader p.buf p.len) = _
      rw [handleMessage, hmessage, ok_bind, if_pos rfl, if_neg hnow, schedMessage, if_pos hmalloc,
        copyMessage, if_pos hp.room, hlen]
      rfl
    refine Or.inr ⟨by rw [AtEnd, hend, hlen]; rfl, _, _, _, _, hquiet, hsched, ?_⟩
    rw [schedAppend_eq_orderedInsert, List.orderedInsert_length]

/-- A part that is not inside the packet is handled according to the bytes around it. -/
lemma part_broken (hp : Placed base bs p) (hbad : ¬ Inside pm base bs p)
    (honward : p.Now base bs → Onward base (image base bs) p.reader p.len)
    (hroom : ∀ n, malloc n sizeofSched = true) (app : App State) :
    CallBroken pm malloc base bs p app := by
  have hupper := hp.upper
  by_cases hstarts : p.buf.toNat < base.toNat + bs.length
  · have hnow : ∃ h : p.Now base bs, ¬ Readable pm (image base bs) p.reader p.len := by
      by_contra hnone
      push Not at hnone
      exact hbad ⟨hstarts, fun h => hnone h⟩
    obtain ⟨⟨hslash, hnow⟩, hunread⟩ := hnow
    refine now_faults (carries_load (slashes_extends base bs) _ _ hslash) hnow fun state hrun => ?_
    exact hunread (slashes_readable hp.between hslash (honward ⟨hslash, hnow⟩) hrun)
  · exact end_broken hp (by omega) hroom app

/-- An item that ends where the packet does is the last one of its bundle. -/
lemma last_itemNext (hp : Placed base bs p) (hat : At (p.call app₀) r itm)
    (hitm : (itemPart itm).Unwrapped) (hend : AtEnd base bs (itemPart itm)) :
    AtEnd base bs p ∧ ∀ m, readerItemNext itm m r = .ok (none, r.advance itm.extent) := by
  have hupper := hp.upper
  have hbelow := hp.below
  have hpart := hp.endPtr
  have hstop : r.endPtr = p.reader.endPtr := hat.endPtr
  change itm.body.toNat + itm.extent.toNat = _ at hend
  change itm.body.toNat + itm.extent.toNat < 2 ^ 64 at hitm
  rw [hat.body] at hend hitm
  obtain ⟨hptr, hle⟩ := overflow_ok hat.checked hitm
  rw [hstop] at hle
  have hneed : readerOverflow (r.advance itm.extent) 4 = true := by
    rw [readerOverflow, decide_eq_true_eq, BitVec.lt_def, BitVec.toNat_add, hptr,
      Reader.advance_endPtr, hstop]
    change _ < (r.ptr.toNat + itm.extent.toNat + 4) % 2 ^ 64
    omega
  refine ⟨?_, fun m => ?_⟩
  · rw [AtEnd]
    omega
  · have hint : readerGetInt32 m (r.advance itm.extent) = .ok (none, r.advance itm.extent) :=
      bind_of_none (need_overflow hneed)
    rw [itemNext_eq]
    exact bind_of_none hint

/-- A part below `p`, or `p` itself, is not inside the packet. -/
def Strays (pm : List Byte → List Byte → Bool) (base : Addr) (bs : List Byte) (p : Part) : Prop :=
  ∃ q, PartOf (image base bs) p q ∧ ¬ Inside pm base bs q

/-- No part wraps around, and no argument of a message leads back before the packet. -/
def Regular (base : Addr) (bs : List Byte) (p : Part) : Prop :=
  ∀ q, PartOf (image base bs) p q → q.Unwrapped ∧
    (q.Now base bs → Onward base (image base bs) q.reader q.len)

lemma loop_broken (hp : Placed base bs p) (hat : At (p.call app₀) r itm)
    (hparts : ∀ y, Relation.ReflTransGen (NextItem (image base bs)) (r, itm) y →
      readerItemIsEnd y.1 y.2 = false → Regular base bs (itemPart y.2) ∧
        (Placed base bs (itemPart y.2) → (itemPart y.2).len.toNat < p.len.toNat →
          Strays pm base bs (itemPart y.2) →
            ∀ app, CallBroken pm malloc base bs (itemPart y.2) app))
    (hstrays : ∃ y, Relation.ReflTransGen (NextItem (image base bs)) (r, itm) y ∧
      Strays pm base bs (itemPart y.2))
    (app : App State) : LoopBroken pm malloc base bs p r itm app := by
  revert hparts hstrays app
  refine At.induction (m := image base bs) (hp.fits app₀)
    (fun r itm hat ih hparts hstrays app => ?_) hat
  obtain ⟨hregular, hcall⟩ := hparts (r, itm) .refl hat.not_end
  have hitm := (hregular _ .refl).1
  obtain ⟨hplaced, hsmall⟩ := item_placed hp hat hitm
  by_cases hstray : Strays pm base bs (itemPart itm)
  · rcases hcall hplaced hsmall hstray app with ⟨out, e, hrun⟩ | ⟨hend, hdiffer⟩
    · exact Or.inl ⟨out, e, loop_settles_fault hat.not_end hrun⟩
    · obtain ⟨out, out', a, a', h, h', hl⟩ := hdiffer
      obtain ⟨hend', hnext⟩ := last_itemNext hp hat hitm hend
      exact Or.inr ⟨hend', out, out', a, a', loop_settles_done hat.not_end h (hnext _),
        loop_settles_done hat.not_end h' (hnext _), hl⟩
  · have hinside : ∀ q, PartOf (image base bs) (itemPart itm) q →
        q.Unwrapped ∧ Inside pm base bs q := fun q hq =>
      ⟨(hregular q hq).1, by_contra fun hbad => hstray ⟨q, hq, hbad⟩⟩
    obtain ⟨app₁, hsame⟩ : ∃ app₁, Same pm malloc base bs (itemPart itm) app app₁ :=
      call_same (Nat.lt_succ_self _) hplaced hinside app
    obtain ⟨y, hy, hystray⟩ := hstrays
    rcases hy.cases_head with rfl | ⟨⟨r', itm'⟩, hstep, hy⟩
    · exact absurd hystray hstray
    · have hrest := ih r' itm' hitm hstep.2 (fun y hy => hparts y (.head hstep hy))
        ⟨y, hy, hystray⟩ app₁
      refine hrest.imp id fun out x _ hx => ?_
      exact loop_settles_next hat.not_end (hsame out)
        (carries_itemNext (extends_around base bs out) itm r _ hstep.2) hx

lemma call_broken {n : ℕ} (hn : p.len.toNat < n) (hp : Placed base bs p)
    (hregular : Regular base bs p) (hroom : ∀ n, malloc n sizeofSched = true)
    (hstrays : Strays pm base bs p) (app : App State) : CallBroken pm malloc base bs p app := by
  induction n generalizing p app with
  | zero => omega
  | succ n ih =>
    by_cases hin : Inside pm base bs p
    · obtain ⟨q, hq, hbad⟩ := hstrays
      rcases hq.cases_head with rfl | ⟨q₁, ⟨x, y, hfirst, hy, hend, rfl⟩, hq⟩
      · exact absurd hin hbad
      · have hat : At (p.call app) x.1 x.2 := at_first (hp.fits app) hfirst.2
        have hbelow (z : Reader × Item)
            (hz : Relation.ReflTransGen (NextItem (image base bs)) x z)
            (hend : readerItemIsEnd z.1 z.2 = false) : Regular base bs (itemPart z.2) := by
          have hitem : ItemOf (image base bs) p (itemPart z.2) := ⟨x, z, hfirst, hz, hend, rfl⟩
          exact fun q hq => hregular q (.head hitem hq)
        have hloop : LoopBroken pm malloc base bs p x.1 x.2 app :=
          loop_broken hp hat (fun z hz hend => ⟨hbelow z hz hend, fun hq hlt hstray =>
            ih (by omega) hq (hbelow z hz hend) hstray⟩) ⟨y, hy, q, hq, hbad⟩ app
        refine hloop.imp id fun out z hne hz => ?_
        have hext := extends_around base bs out
        exact visits_settles (.first (c := p.call app) (carries_strncmpEq hext _ _ _ hfirst.1)
          (carries_bundleBegin hext _ _ _ hfirst.2)) hz hne
    · exact part_broken hp hin (hregular p .refl).2 hroom app

/-- The whole packet `bs` at `base`. -/
def packet (timetag : BitVec 64) (base : Addr) (bs : List Byte) : Part :=
  ⟨timetag, base, BitVec.ofNat 64 bs.length⟩

lemma packet_placed (timetag : BitVec 64) (hbelow : base.toNat + bs.length + 16 < 2 ^ 64)
    (hsize : bs.length < 2 ^ 63) : Placed base bs (packet timetag base bs) := by
  have hlen : (BitVec.ofNat 64 bs.length).toNat = bs.length := by
    rw [BitVec.toNat_ofNat, Nat.mod_eq_of_lt (by omega)]
  refine ⟨le_rfl, ?_, hbelow, hsize⟩
  change base.toNat + (BitVec.ofNat 64 bs.length).toNat ≤ _
  rw [hlen]

/-- What an element of the schedule tells about its message. -/
def content (e : Sched) : Timespec × Addr × List Byte := (e.due, e.len, e.buf)

/-- With any two surroundings of the packet the handler returns, with the same slots and the
same due times, lengths and bytes on the schedule. -/
def OwnBytesOnly (pm : List Byte → List Byte → Bool) (malloc : ℕ → Addr → Bool) (base : Addr)
    (bs : List Byte) (p : Part) (app : App State) : Prop :=
  ∀ out out' : Addr → Byte, ∃ x y,
    Converges ((p.call app).run (oscEnv pm malloc) (around base bs out)) (.ok x) ∧
    Converges ((p.call app).run (oscEnv pm malloc) (around base bs out')) (.ok y) ∧
    x.state.slots = y.state.slots ∧ x.list.map content = y.list.map content

lemma CallBroken.not_own (h : CallBroken pm malloc base bs p app) :
    ¬ OwnBytesOnly pm malloc base bs p app := by
  intro hown
  rcases h with ⟨out, e, hrun⟩ | ⟨-, out, out', a, a', hrun, hrun', hlen⟩
  · obtain ⟨x, -, hx, -⟩ := hown out out
    cases hx.unique (run_chain _) hrun
  · obtain ⟨x, y, hx, hy, -, hlist⟩ := hown out out'
    cases hx.unique (run_chain _) hrun
    cases hy.unique (run_chain _) hrun'
    have hsame := congrArg List.length hlist
    rw [List.length_map, List.length_map] at hsame
    omega

/-- A packet whose parts all stay inside it has the same effect in every surrounding; and one
whose sizes do not wrap around has not if a part strays. -/
theorem own_bytes_inside (pm : List Byte → List Byte → Bool) (malloc : ℕ → Addr → Bool) (base : Addr)
    (bs : List Byte) (timetag : BitVec 64) (app : App State)
    (hbelow : base.toNat + bs.length + 16 < 2 ^ 64) (hsize : bs.length < 2 ^ 63) :
    ((∀ q, PartOf (image base bs) (packet timetag base bs) q →
        q.Unwrapped ∧ Inside pm base bs q) →
      OwnBytesOnly pm malloc base bs (packet timetag base bs) app) ∧
    ((∀ n, malloc n sizeofSched = true) → Regular base bs (packet timetag base bs) →
      OwnBytesOnly pm malloc base bs (packet timetag base bs) app →
      ∀ q, PartOf (image base bs) (packet timetag base bs) q → Inside pm base bs q) := by
  have hp := packet_placed timetag hbelow hsize
  refine ⟨fun hinside out out' => ?_, fun hroom hregular hown q hq => by_contra fun hbad => ?_⟩
  · obtain ⟨app', hsame⟩ : ∃ app', Same pm malloc base bs (packet timetag base bs) app app' :=
      call_same (Nat.lt_succ_self _) hp hinside app
    exact ⟨app', app', hsame out, hsame out', rfl, rfl⟩
  · exact (call_broken (Nat.lt_succ_self _) hp hregular hroom ⟨q, hq, hbad⟩ app).not_own hown

section Packets

/-- A bundle with the message `/a` without arguments. -/
def lonePath : List Byte :=
  bundleTag ++ (bytesBE 8 1 ++ (bytesBE 4 8 ++ [slash, 0x61, 0, 0, comma, 0, 0, 0]))

def quietApp : App State := ⟨zeroState, [], 0⟩

lemma lonePath_first {x : Reader × Item}
    (h : FirstItem (image 0x10000 lonePath) (packet oscImmediate 0x10000 lonePath) x) :
    x = (⟨0x10000, 0x10014, 0x1001c⟩, ⟨8, 0x10014, 1, 0x1001c⟩) := by
  have hbegin : readerBundleBegin (packet oscImmediate 0x10000 lonePath).len
      (image 0x10000 lonePath) (packet oscImmediate 0x10000 lonePath).reader =
      .ok (some ⟨8, 0x10014, 1, 0x1001c⟩, ⟨0x10000, 0x10014, 0x1001c⟩) := by decide +kernel
  have hx := h.2.symm.trans hbegin
  simp only [Except.ok.injEq, Prod.mk.injEq, Option.some.injEq] at hx
  exact Prod.ext hx.2 hx.1

lemma lonePath_next {y : Reader × Item}
    (h : Relation.ReflTransGen (NextItem (image 0x10000 lonePath))
      (⟨0x10000, 0x10014, 0x1001c⟩, ⟨8, 0x10014, 1, 0x1001c⟩) y) :
    y = (⟨0x10000, 0x10014, 0x1001c⟩, ⟨8, 0x10014, 1, 0x1001c⟩) := by
  rcases h.cases_head with rfl | ⟨z, ⟨-, hnext⟩, -⟩
  · rfl
  · have hlast : readerItemNext ⟨8, 0x10014, 1, 0x1001c⟩ (image 0x10000 lonePath)
        ⟨0x10000, 0x10014, 0x1001c⟩ = .ok (none, ⟨0x10000, 0x1001c, 0x1001c⟩) := by decide +kernel
    have hz := hnext.symm.trans hlast
    simp at hz

lemma lonePath_parts {q : Part}
    (h : PartOf (image 0x10000 lonePath) (packet oscImmediate 0x10000 lonePath) q) :
    q = packet oscImmediate 0x10000 lonePath ∨ q = ⟨1, 0x10014, 8⟩ := by
  rcases h.cases_head with rfl | ⟨q₁, ⟨x, y, hfirst, hy, -, rfl⟩, hq⟩
  · exact Or.inl rfl
  · cases lonePath_first hfirst
    cases lonePath_next hy
    rcases hq.cases_head with rfl | ⟨q₂, ⟨x, y, hfirst, -⟩, -⟩
    · exact Or.inr rfl
    · have hmessage : readerIsBundle (image 0x10000 lonePath)
          (itemPart ⟨8, 0x10014, 1, 0x1001c⟩).reader = .ok false := by decide +kernel
      cases hmessage.symm.trans hfirst.1

lemma lonePath_begin : readerMessageBegin 8 (image 0x10000 lonePath) (readerInitialize 0x10014 8) =
    .ok (some ⟨0x10019, 0, none, 0x10014, 0x1001c⟩, ⟨0x10014, 0x1001c, 0x1001c⟩) := by
  decide +kernel

lemma lonePath_end : readerArgIsEnd (image 0x10000 lonePath) ⟨0x10014, 0x1001c, 0x1001c⟩
    ⟨0x10019, 0, none, 0x10014, 0x1001c⟩ = .ok true := by decide +kernel

lemma lonePath_bundle {q : Part} (h : q = packet oscImmediate 0x10000 lonePath) :
    ¬ q.Now 0x10000 lonePath := by
  rintro ⟨hslash, -⟩
  rw [h] at hslash
  have hhash : load (image 0x10000 lonePath) (packet oscImmediate 0x10000 lonePath).buf =
      .ok 0x23 := by decide +kernel
  cases hhash.symm.trans hslash

lemma lonePath_inside (pm : List Byte → List Byte → Bool) (q : Part)
    (h : PartOf (image 0x10000 lonePath) (packet oscImmediate 0x10000 lonePath) q) :
    q.Unwrapped ∧ Inside pm 0x10000 lonePath q := by
  rcases lonePath_parts h with rfl | rfl
  · exact ⟨by decide, by decide, fun hnow => absurd hnow (lonePath_bundle rfl)⟩
  · exact ⟨by decide, by decide, fun _ =>
      ⟨_, _, lonePath_begin, fun _ _ => takable_end lonePath_end _⟩⟩

/-- After the last argument the cursor stays. -/
lemma takes_end {m : Memory} {arg : Arg} {x : Option Arg × Reader}
    (hend : readerArgIsEnd m r arg = .ok true)
    (h : Relation.ReflTransGen (fun x y : Option Arg × Reader => Takes m x.1 x.2 y.1 y.2)
      (some arg, r) x) : x = (some arg, r) := by
  induction h with
  | refl => rfl
  | @tail y z _ htakes ih =>
    obtain ⟨a, r'⟩ := z
    subst ih
    cases htakes with
    | stop => rfl
    | next hgo => cases hend.symm.trans hgo

lemma lonePath_regular : Regular 0x10000 lonePath (packet oscImmediate 0x10000 lonePath) := by
  intro q h
  refine ⟨(lonePath_inside (fun _ _ => true) q h).1, fun hnow arg r hbegin x hx => ?_⟩
  rcases lonePath_parts h with rfl | rfl
  · exact absurd hnow (lonePath_bundle rfl)
  · cases hbegin.symm.trans lonePath_begin
    rw [takes_end lonePath_end hx]
    decide

theorem own_bytes_lonePath :
    OwnBytesOnly (fun _ _ => true) (fun _ _ => true) 0x10000 lonePath
        (packet oscImmediate 0x10000 lonePath) quietApp ∧
      ∀ q, PartOf (image 0x10000 lonePath) (packet oscImmediate 0x10000 lonePath) q →
        Inside (fun _ _ => true) 0x10000 lonePath q := by
  have h := own_bytes_inside (fun _ _ => true) (fun _ _ => true) 0x10000 lonePath oscImmediate
    quietApp (by decide) (by decide)
  have hown := h.1 (lonePath_inside _)
  exact ⟨hown, h.2 (fun _ => rfl) lonePath_regular hown⟩

/-- A bundle for a later time, with an empty item. -/
def emptyItem : List Byte := bundleTag ++ (bytesBE 8 2 ++ bytesBE 4 0)

/-- Behind the packet stands a NUL, or a slash. -/
theorem emptyItem_not_own :
    ¬ ∀ (pm : List Byte → List Byte → Bool) (malloc : ℕ → Addr → Bool) (base : Addr)
      (bs : List Byte) (timetag : BitVec 64) (app : App State),
      base.toNat + bs.length + 16 < 2 ^ 64 → bs.length < 2 ^ 63 →
      OwnBytesOnly pm malloc base bs (packet timetag base bs) app := by
  intro h
  obtain ⟨x, y, hx, hy, -, hlist⟩ := h (fun _ _ => true) (fun _ _ => true) 0x10000 emptyItem
    oscImmediate quietApp (by decide) (by decide) (fun _ => 0) (fun _ => slash)
  have hnone : x.list.length = 0 := hx.of_map (f := (·.list.length)) (n := 3) (run_chain _)
    (by decide +kernel)
  have hone : y.list.length = 1 := hy.of_map (f := (·.list.length)) (n := 3) (run_chain _)
    (by decide +kernel)
  have hsame := congrArg List.length hlist
  rw [List.length_map, List.length_map, hnone, hone] at hsame
  cases hsame

end Packets

end Osc2FtdiDmx.StaleBytes
