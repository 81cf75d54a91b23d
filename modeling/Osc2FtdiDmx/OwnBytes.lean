import Osc2FtdiDmx.MessageSurroundings
import Osc2FtdiDmx.MessageRefusal
import Osc2FtdiDmx.PacketTermination

/-! What a packet does with its own bytes only. The parts of a packet are found in its
bytes; if each of them begins before the end of the packet and each message that is run now
can be read there, the handler does the same with any bytes before and after the packet. -/
namespace Osc2FtdiDmx.OwnBytes
open BytesEndian OscMemory OscReader Get ReaderSpecs FuelledRuns SlotStore OscTree PacketHandler
open PacketCalls PacketRanges MessageRefusal PacketSurroundings MessageSurroundings

/-- A range that the packet handler is called for, and its timetag. -/
structure Part where
  timetag : BitVec 64
  buf : Addr
  len : Addr

def Part.reader (p : Part) : Reader := readerInitialize p.buf p.len

def Part.call {σ : Type} (p : Part) (app : App σ) : Call σ := ⟨app, p.timetag, p.buf, p.len⟩

def itemPart (itm : Item) : Part := ⟨itm.timetag, itm.body, itm.extent⟩

/-- The loop test of a bundle is reached with the cursor and item `y` after `x`. -/
def NextItem (m : Memory) (x y : Reader × Item) : Prop :=
  readerItemIsEnd x.1 x.2 = false ∧ readerItemNext x.2 m x.1 = .ok (some y.2, y.1)

def FirstItem (m : Memory) (p : Part) (x : Reader × Item) : Prop :=
  readerIsBundle m p.reader = .ok true ∧
    readerBundleBegin p.len m p.reader = .ok (some x.2, x.1)

/-- `q` is an item of the bundle `p`. -/
def ItemOf (m : Memory) (p q : Part) : Prop :=
  ∃ x y, FirstItem m p x ∧ Relation.ReflTransGen (NextItem m) x y ∧
    readerItemIsEnd y.1 y.2 = false ∧ q = itemPart y.2

/-- `q` is `p`, or an item at any depth below it. -/
def PartOf (m : Memory) : Part → Part → Prop := Relation.ReflTransGen (ItemOf m)

/-- The sum of the part's address and its length does not wrap around. -/
def Part.Unwrapped (p : Part) : Prop := p.buf.toNat + p.len.toNat < 2 ^ 64

instance (p : Part) : Decidable p.Unwrapped := inferInstanceAs (Decidable (_ < _))

/-- The part is a message that is run now. -/
def Part.Now (base : Addr) (bs : List Byte) (p : Part) : Prop :=
  load (image base bs) p.buf = .ok slash ∧ p.timetag = oscImmediate

/-- The part begins before the end of the packet `bs`, and it can be read there if it is a
message that is run now. -/
structure Inside (pm : List Byte → List Byte → Bool) (base : Addr) (bs : List Byte) (p : Part) :
    Prop where
  starts : p.buf.toNat < base.toNat + bs.length
  readable : p.Now base bs → Readable pm (image base bs) p.reader p.len

section Parts
variable {base : Addr} {bs : List Byte} {p : Part} {m : Memory}

/-- The part lies in the packet `bs`, which ends below the last 16 bytes of memory and is not
larger than an object can be. -/
structure Placed (base : Addr) (bs : List Byte) (p : Part) : Prop where
  lower : base.toNat ≤ p.buf.toNat
  upper : p.buf.toNat + p.len.toNat ≤ base.toNat + bs.length
  below : base.toNat + bs.length + 16 < 2 ^ 64
  size : bs.length < 2 ^ 63

lemma Placed.endPtr (h : Placed base bs p) : p.reader.endPtr.toNat = p.buf.toNat + p.len.toNat := by
  have hupper := h.upper
  have hbelow := h.below
  change (p.buf + p.len).toNat = _
  rw [BitVec.toNat_add, Nat.mod_eq_of_lt (by omega)]

lemma Placed.room (h : Placed base bs p) :
    (sizeofSched + p.len).toNat = sizeofSched.toNat + p.len.toNat := by
  have hlower := h.lower
  have hupper := h.upper
  have hsize := h.size
  have hhead : sizeofSched.toNat = 32 := rfl
  rw [BitVec.toNat_add, Nat.mod_eq_of_lt (by omega)]

lemma Placed.fits {σ : Type} (h : Placed base bs p) (app : App σ) : Fits (p.call app) := by
  have hupper := h.upper
  have hbelow := h.below
  change p.buf.toNat + p.len.toNat + 16 < 2 ^ 64
  omega

lemma Placed.between (h : Placed base bs p) : Between base bs p.reader := by
  have hend := h.endPtr
  have hupper := h.upper
  refine ⟨h.lower, ?_, ?_, h.below⟩
  · change p.buf.toNat ≤ _
    omega
  · omega

lemma need_part (p : Part) : readerOverflow p.reader p.len = false := by
  rw [readerOverflow, decide_eq_false_iff_not]
  exact BitVec.lt_irrefl _

/-- A bundle of less than 16 bytes has no items, whatever the bytes after it. -/
lemma bundleBegin_short (h : Placed base bs p) (hlen : p.len.toNat < 16) (m : Memory) :
    readerBundleBegin p.len m p.reader = .ok (none, p.reader) := by
  have hend := h.endPtr
  have hupper := h.upper
  have hbelow := h.below
  have hneed : readerOverflow p.reader 16 = true := by
    rw [readerOverflow, decide_eq_true_eq, BitVec.lt_def, BitVec.toNat_add, hend]
    change _ < (p.buf.toNat + 16) % 2 ^ 64
    omega
  rw [readerBundleBegin, readerItemBegin, bind_of_some (need_eq (need_part p)),
    bind_of_some cursor_eq, bind_of_none (need_overflow hneed)]

lemma isBundle_long (h : Placed base bs p) (hlen : 16 ≤ p.len.toNat) :
    ∃ b, readerIsBundle (image base bs) p.reader = .ok b := by
  have hupper := h.upper
  have hbelow := h.below
  have htag : bundleTag.length = 8 := rfl
  exact image_strncmpEq h.lower (by change p.buf.toNat + _ ≤ _; omega) (by omega)

lemma bundleBegin_long (h : Placed base bs p) (hlen : 16 ≤ p.len.toNat) :
    ∃ res, readerBundleBegin p.len (image base bs) p.reader = .ok res := by
  have hend := h.endPtr
  have hupper := h.upper
  have hlower := h.lower
  have hbelow := h.below
  have hneed : readerOverflow p.reader 16 = false := by
    rw [readerOverflow, decide_eq_false_iff_not, BitVec.lt_def, BitVec.toNat_add, hend]
    change ¬ _ < (p.buf.toNat + 16) % 2 ^ 64
    omega
  obtain ⟨tag, htag⟩ := isBundle_long h hlen
  rw [readerBundleBegin, readerItemBegin, bind_of_some (need_eq (need_part p)),
    bind_of_some cursor_eq, bind_of_some (need_eq hneed), bind_of_some (peek_eq htag)]
  cases tag with
  | false => exact ⟨_, rfl⟩
  | true =>
    have height := h.between.advance (n := 8) (by
      change p.buf.toNat + 8 ≤ _
      omega)
    have htime : ∃ res, readerGetTimetag (image base bs) (p.reader.advance 8) = .ok res :=
      image_field (n := 8) _ (by omega) height
    obtain ⟨⟨_ | timetag, r⟩, htime⟩ := htime
    · exact ⟨_, by rw [if_pos rfl, bind_of_some skip_eq, bind_of_none htime]⟩
    · rw [if_pos rfl, bind_of_some skip_eq, bind_of_some htime]
      have hsixteen : Between base bs r := by
        rw [timetag_some htime]
        apply height.advance
        rw [Reader.advance_endPtr, Reader.advance_ptr, BitVec.toNat_add, hend]
        change (p.buf.toNat + 8) % 2 ^ 64 + 8 ≤ _
        omega
      exact image_itemRaw _ hsixteen

end Parts

section Same
variable {pm : List Byte → List Byte → Bool} {malloc : ℕ → Addr → Bool} {base : Addr} {bs : List Byte}
variable {p : Part} {r : Reader} {itm : Item} {app app' app₀ : App State}

/-- With any bytes around the packet the call returns with `app'`. -/
def Same (pm : List Byte → List Byte → Bool) (malloc : ℕ → Addr → Bool) (base : Addr)
    (bs : List Byte) (p : Part) (app app' : App State) : Prop :=
  ∀ out, Converges ((p.call app).run (oscEnv pm malloc) (around base bs out)) (.ok app')

lemma item_placed (hp : Placed base bs p) (hat : At (p.call app₀) r itm)
    (hitm : (itemPart itm).Unwrapped) :
    Placed base bs (itemPart itm) ∧ (itemPart itm).len.toNat < p.len.toNat := by
  obtain ⟨hin, hsmall⟩ := hat.within (hp.fits app₀) hitm
  refine ⟨⟨hp.lower.trans hin.lower, hin.upper.trans hp.upper, hp.below, hp.size⟩, ?_⟩
  change itm.extent.toNat < p.len.toNat
  change _ ≤ p.len.toNat at hsmall
  omega

/-- The header of the next item is read inside the packet. -/
lemma image_itemNext (hp : Placed base bs p) (hat : At (p.call app₀) r itm)
    (hitm : (itemPart itm).Unwrapped) : ∃ res, readerItemNext itm (image base bs) r = .ok res := by
  have hlower := hat.lower
  have hbase := hp.lower
  have hend := hp.endPtr
  have hupper := hp.upper
  have hstop : r.endPtr = p.reader.endPtr := hat.endPtr
  change itm.body.toNat + itm.extent.toNat < 2 ^ 64 at hitm
  rw [hat.body] at hitm
  change p.buf.toNat + 20 ≤ _ at hlower
  have hbetween : Between base bs r :=
    ⟨by omega, hat.upper, by rw [hstop, hend]; exact hupper, hp.below⟩
  exact image_itemRaw _ (hbetween.advance (overflow_ok hat.checked hitm).2)

lemma loop_same (hp : Placed base bs p) (hat : At (p.call app₀) r itm)
    (hparts : ∀ y, Relation.ReflTransGen (NextItem (image base bs)) (r, itm) y →
      readerItemIsEnd y.1 y.2 = false → (itemPart y.2).Unwrapped ∧
        (Placed base bs (itemPart y.2) → (itemPart y.2).len.toNat < p.len.toNat →
          ∀ app, ∃ app', Same pm malloc base bs (itemPart y.2) app app'))
    (app : App State) :
    ∃ app', ∀ out, LoopSettles (oscEnv pm malloc) (around base bs out) app r itm (.ok app') := by
  revert hparts app
  refine At.induction (m := image base bs) (hp.fits app₀) (fun r itm hat ih hparts app => ?_) hat
  obtain ⟨hitm, hcall⟩ := hparts (r, itm) .refl hat.not_end
  obtain ⟨hplaced, hsmall⟩ := item_placed hp hat hitm
  obtain ⟨app₁, hsame⟩ := hcall hplaced hsmall app
  obtain ⟨⟨_ | itm', r'⟩, hnext⟩ := image_itemNext hp hat hitm
  · exact ⟨app₁, fun out => loop_settles_done hat.not_end (hsame out)
      (carries_itemNext (extends_around base bs out) itm r _ hnext)⟩
  · have hstep : NextItem (image base bs) (r, itm) (r', itm') := ⟨hat.not_end, hnext⟩
    obtain ⟨app', hrest⟩ := ih r' itm' hitm hnext (fun y hy => hparts y (.head hstep hy)) app₁
    exact ⟨app', fun out => loop_settles_next hat.not_end (hsame out)
      (carries_itemNext (extends_around base bs out) itm r _ hnext) (hrest out)⟩

lemma isMessage_other {m : Memory} {b : Byte} (hb : load m r.ptr = .ok b) (hne : b ≠ slash) :
    readerIsMessage m r = .ok false := by
  simp [readerIsMessage, hb, hne]

lemma run_none {E : Env State} {m : Memory} {r : Reader} (app : App State)
    (hbundle : readerIsBundle m p.reader = .ok true)
    (hbegin : readerBundleBegin p.len m p.reader = .ok (none, r)) :
    (p.call app).run E m 1 = .ok app := by
  have hrun : (p.call app).run E m 1 = _ := run_bundle hbundle 0
  rw [hrun, handleOscBundle]
  change (liftM (readerBundleBegin p.len m p.reader) >>= _) = _
  rw [hbegin]
  rfl

/-- Whatever is read there, a range of less than 16 bytes is no bundle with items. -/
lemma short_same (hp : Placed base bs p) (hlen : p.len.toNat < 16) {b : Byte}
    (hb : load (image base bs) p.buf = .ok b) (hne : b ≠ slash) (app : App State) :
    Same pm malloc base bs p app app := by
  intro out
  have hload := carries_load (extends_around base bs out) p.buf b hb
  obtain ⟨tag, htag⟩ := around_strncmpEq base bs out p.buf bundleTag
  refine ⟨1, ?_, ok_ne_starve app⟩
  cases tag with
  | false => exact run_other (c := p.call app) htag (isMessage_other hload hne) 0
  | true => exact run_none app htag (bundleBegin_short hp hlen _)

lemma carries_handleMessage {m m' : Memory} (hm : Extends m m') (app : App State)
    (timetag : BitVec 64) (reader : Reader) (buf len : Addr) :
    CarriesValue m m' (handleMessage (oscEnv pm malloc) · app timetag reader buf len) := by
  refine ((carries_load hm reader.ptr).bind fun _ => .const _).bind fun message => ?_
  cases message with
  | false => exact .const _
  | true =>
    simp only [if_true]
    split_ifs with hnow
    · exact (carries_handleOscMessage pm hm reader len app.state).bind fun _ => .const _
    · unfold schedMessage
      split_ifs
      · refine CarriesValue.bind ?_ fun _ => .const _
        unfold copyMessage
        split_ifs
        · exact carries_loads hm buf len.toNat
        · exact .const _
      · exact .const _

/-- A message is run or copied from the packet alone. -/
lemma message_same (hp : Placed base bs p) (hin : Inside pm base bs p)
    (hslash : load (image base bs) p.buf = .ok slash) (app : App State) :
    ∃ app', Same pm malloc base bs p app app' := by
  have hmessage : readerIsMessage (image base bs) p.reader = .ok true := isMessage_slash hslash
  have halone : ∃ app', handleMessage (oscEnv pm malloc) (image base bs) app p.timetag p.reader
      p.buf p.len = .ok app' := by
    rw [handleMessage, hmessage, ok_bind, if_pos rfl]
    by_cases hnow : p.timetag = oscImmediate
    · obtain ⟨state, hrun⟩ : ∃ state,
          handleOscMessage pm (image base bs) p.reader p.len app.state = .ok state :=
        readable_handled hslash (hin.readable ⟨hslash, hnow⟩) _
      have hrun' : (oscEnv pm malloc).message (image base bs) p.reader p.len app.state =
          .ok state := hrun
      exact ⟨{ app with state }, by rw [if_pos hnow, hrun']; rfl⟩
    · obtain ⟨bytes, hbytes⟩ := image_loads (n := p.len.toNat) hp.lower hp.upper (by
        have hbelow := hp.below
        omega)
      rw [if_neg hnow, schedMessage, copyMessage, if_pos hp.room, hbytes]
      split_ifs
      · exact ⟨_, rfl⟩
      · exact ⟨_, rfl⟩
  obtain ⟨app', happ⟩ := halone
  refine ⟨app', fun out => ⟨1, ?_, ok_ne_starve app'⟩⟩
  have hload := carries_load (extends_around base bs out) p.buf slash hslash
  rw [run_message (c := p.call app) (isBundle_slash hload)]
  exact congrArg lift (carries_handleMessage (extends_around base bs out) app p.timetag p.reader
    p.buf p.len _ happ)

lemma call_same {n : ℕ} (hn : p.len.toNat < n) (hp : Placed base bs p)
    (hparts : ∀ q, PartOf (image base bs) p q → q.Unwrapped ∧ Inside pm base bs q)
    (app : App State) : ∃ app', Same pm malloc base bs p app app' := by
  induction n generalizing p app with
  | zero => omega
  | succ n ih =>
    have hin := (hparts p .refl).2
    obtain ⟨b, hb⟩ := image_load hp.lower hin.starts
    by_cases hslash : b = slash
    · rw [hslash] at hb
      exact message_same hp hin hb app
    · by_cases hlen : p.len.toNat < 16
      · exact ⟨app, short_same hp hlen hb hslash app⟩
      · obtain ⟨tag, htag⟩ := isBundle_long hp (by omega)
        have hload (out : Addr → Byte) := carries_load (extends_around base bs out) p.buf b hb
        have htag' (out : Addr → Byte) : readerIsBundle (around base bs out) p.reader = .ok tag :=
          carries_strncmpEq (extends_around base bs out) _ _ tag htag
        cases tag with
        | false =>
          exact ⟨app, fun out => ⟨1, run_other (c := p.call app) (htag' out)
            (isMessage_other (hload out) hslash) 0, ok_ne_starve app⟩⟩
        | true =>
          obtain ⟨res, hbegin⟩ := bundleBegin_long hp (by omega)
          have hbegin' (out : Addr → Byte) :=
            carries_bundleBegin (extends_around base bs out) p.len p.reader res hbegin
          obtain ⟨_ | itm, r⟩ := res
          · exact ⟨app, fun out => ⟨1, run_none app (htag' out) (hbegin' out), ok_ne_starve app⟩⟩
          · have hfirst : FirstItem (image base bs) p (r, itm) := ⟨htag, hbegin⟩
            have hat : At (p.call app) r itm := at_first (hp.fits app) hbegin
            have hitem (y : Reader × Item)
                (hy : Relation.ReflTransGen (NextItem (image base bs)) (r, itm) y)
                (hend : readerItemIsEnd y.1 y.2 = false) :
                ItemOf (image base bs) p (itemPart y.2) := ⟨_, y, hfirst, hy, hend, rfl⟩
            obtain ⟨app', hloop⟩ := loop_same hp hat (fun y hy hend =>
              ⟨(hparts _ (.single (hitem y hy hend))).1, fun hq hlt => ih (by omega) hq fun q hq =>
                hparts q (.head (hitem y hy hend) hq)⟩) app
            exact ⟨app', fun out => visits_settles
              (.first (c := p.call app) (htag' out) (hbegin' out)) (hloop out) (ok_ne_starve app')⟩

end Same

end Osc2FtdiDmx.OwnBytes
