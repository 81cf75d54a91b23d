import Osc2FtdiDmx.PacketCalls
import Osc2FtdiDmx.ReaderSpecs

/-! The ranges that the recursive calls of the packet handler get. The overflow check
of the reader adds a sign-extended size to a pointer, so it keeps an item inside its
bundle exactly when that sum does not wrap around. -/
namespace Osc2FtdiDmx.PacketRanges
open BytesEndian OscMemory OscReader Get ReaderSpecs FuelledRuns PacketHandler PacketCalls

/-- `n` bytes from `p` on are among the `k` bytes from `q` on. -/
structure Within (p n q k : Addr) : Prop where
  lower : q.toNat ≤ p.toNat
  upper : p.toNat + n.toNat ≤ q.toNat + k.toNat

lemma Within.trans {p n q k s l : Addr} (h : Within p n q k) (g : Within q k s l) :
    Within p n s l :=
  ⟨g.lower.trans h.lower, h.upper.trans g.upper⟩

/-- The pointer sum of the overflow check is the true sum. -/
def Unwrapped (itm : Item) : Prop := itm.body.toNat + itm.extent.toNat < 2 ^ 64

/-- Away from both ends of the address space the sum wraps around exactly for a size
whose sign bit is set. -/
lemma unwrapped_iff_nonneg {itm : Item} (hlow : 2 ^ 31 ≤ itm.body.toNat)
    (hhigh : itm.body.toNat + 2 ^ 31 ≤ 2 ^ 64) : Unwrapped itm ↔ 0 ≤ itm.size.toInt := by
  have hext : itm.extent.toInt = itm.size.toInt := BitVec.toInt_signExtend_of_le (by omega)
  have hlt := itm.size.isLt
  rw [BitVec.toInt_eq_toNat_cond, BitVec.toInt_eq_toNat_cond] at hext
  rw [Unwrapped, BitVec.toInt_eq_toNat_cond]
  split_ifs at hext ⊢ <;> omega

/-- The object a call works on ends below the last 16 bytes of the address space. -/
def Fits {σ : Type} (c : Call σ) : Prop := c.buf.toNat + c.len.toNat + 16 < 2 ^ 64

instance {σ : Type} (c : Call σ) : Decidable (Fits c) := inferInstanceAs (Decidable (_ < _))

variable {σ : Type} {E : Env σ} {m : Memory}

@[simp] lemma reader_ptr (c : Call σ) : c.reader.ptr = c.buf := rfl
@[simp] lemma reader_endPtr (c : Call σ) : c.reader.endPtr = c.buf + c.len := rfl

lemma Fits.endPtr {c : Call σ} (h : Fits c) :
    (c.buf + c.len).toNat = c.buf.toNat + c.len.toNat := by
  rw [Fits] at h
  rw [BitVec.toNat_add, Nat.mod_eq_of_lt (by omega)]

lemma Fits.item {c : Call σ} (h : Fits c) {app : App σ} {itm : Item}
    (hin : Within itm.body itm.extent c.buf c.len) : Fits (itemCall app itm) := by
  have hupper := hin.upper
  rw [Fits] at h ⊢
  change itm.body.toNat + itm.extent.toNat + 16 < 2 ^ 64
  omega

lemma overflow_ok {r : Reader} {n : Addr} (h : readerOverflow r n = false)
    (hn : r.ptr.toNat + n.toNat < 2 ^ 64) :
    (r.advance n).ptr.toNat = r.ptr.toNat + n.toNat ∧
      r.ptr.toNat + n.toNat ≤ r.endPtr.toNat := by
  rw [readerOverflow, decide_eq_false_iff_not, BitVec.lt_def, BitVec.toNat_add,
    Nat.mod_eq_of_lt hn] at h
  rw [Reader.advance_ptr, BitVec.toNat_add, Nat.mod_eq_of_lt hn]
  omega

lemma int32_some {r r' : Reader} {v : BitVec 32} (h : readerGetInt32 m r = .ok (some v, r')) :
    readerOverflow r 4 = false ∧ r' = r.advance 4 := readField_some h

lemma timetag_some {r r' : Reader} {v : BitVec 64} (h : readerGetTimetag m r = .ok (some v, r')) :
    r' = r.advance 8 := (readField_some h).2

/-- An item header was read: the cursor stands at the item's body. -/
lemma itemRaw_some {r r' : Reader} {itm itm' : Item}
    (h : readerItemRaw itm m r = .ok (some itm', r')) :
    readerOverflow r 4 = false ∧ r' = r.advance 4 ∧ itm'.body = r'.ptr ∧
      itm'.endPtr = itm.endPtr ∧ readerOverflow r' itm'.extent = false := by
  rw [readerItemRaw] at h
  obtain ⟨size, r₁, h₁, h⟩ := bind_ok_some.mp h
  obtain ⟨_, r₂, h₂, h⟩ := bind_ok_some.mp h
  obtain ⟨p, r₃, h₃, h⟩ := bind_ok_some.mp h
  obtain ⟨hneed, rfl⟩ := int32_some h₁
  obtain ⟨hsize, rfl⟩ := need_ok_some.mp h₂
  obtain ⟨rfl, rfl⟩ := cursor_ok_some.mp h₃
  obtain ⟨rfl, rfl⟩ := pure_ok_some.mp h
  exact ⟨hneed, rfl, rfl, rfl, hsize⟩

lemma bundleBegin_some {r r' : Reader} {len : Addr} {itm : Item}
    (h : readerBundleBegin len m r = .ok (some itm, r')) :
    readerOverflow r 16 = false ∧ ∃ itm₀ : Item, itm₀.endPtr = r.ptr + len ∧
      readerItemRaw itm₀ m ((r.advance 8).advance 8) = .ok (some itm, r') := by
  rw [readerBundleBegin, readerItemBegin] at h
  obtain ⟨_, r₁, h₁, h⟩ := bind_ok_some.mp h
  obtain ⟨p, r₂, h₂, h⟩ := bind_ok_some.mp h
  obtain ⟨_, r₃, h₃, h⟩ := bind_ok_some.mp h
  obtain ⟨tag, r₄, h₄, h⟩ := bind_ok_some.mp h
  obtain ⟨-, rfl⟩ := need_ok_some.mp h₁
  obtain ⟨rfl, rfl⟩ := cursor_ok_some.mp h₂
  obtain ⟨hhead, rfl⟩ := need_ok_some.mp h₃
  obtain ⟨-, rfl⟩ := peek_ok_some.mp h₄
  cases tag with
  | false =>
    rw [if_neg Bool.false_ne_true] at h
    exact (fail_ne_some h).elim
  | true =>
    rw [if_pos rfl] at h
    obtain ⟨_, r₅, h₅, h⟩ := bind_ok_some.mp h
    obtain ⟨timetag, r₆, h₆, h⟩ := bind_ok_some.mp h
    obtain rfl := skip_ok_some.mp h₅
    obtain rfl := timetag_some h₆
    exact ⟨hhead, _, rfl, h⟩

/-- The cursor and the item of a bundle at its loop test. -/
structure At (c : Call σ) (r : Reader) (itm : Item) : Prop where
  endPtr : r.endPtr = c.buf + c.len
  stop : itm.endPtr = r.endPtr
  body : itm.body = r.ptr
  lower : c.buf.toNat + 20 ≤ r.ptr.toNat
  upper : r.ptr.toNat ≤ r.endPtr.toNat
  checked : readerOverflow r itm.extent = false

variable {c : Call σ} {r r' : Reader} {itm itm' : Item}

lemma at_raw (hfits : Fits c) (hend : r.endPtr = c.buf + c.len)
    (hstop : itm.endPtr = r.endPtr) (hlower : c.buf.toNat + 16 ≤ r.ptr.toNat)
    (hupper : r.ptr.toNat ≤ r.endPtr.toNat) (h : readerItemRaw itm m r = .ok (some itm', r')) :
    At c r' itm' ∧ r'.ptr.toNat = r.ptr.toNat + 4 := by
  obtain ⟨hneed, rfl, hbody, hitem, hcheck⟩ := itemRaw_some h
  have hbound := hfits.endPtr
  rw [Fits] at hfits
  rw [← hend] at hbound
  have hfour : (4 : Addr).toNat = 4 := rfl
  obtain ⟨hptr, hle⟩ := overflow_ok hneed (by omega)
  refine ⟨⟨hend, hitem.trans hstop, hbody, ?_, ?_, hcheck⟩, by omega⟩
  · omega
  · rw [Reader.advance_endPtr]
    omega

lemma at_first (hfits : Fits c) (h : readerBundleBegin c.len m c.reader = .ok (some itm, r)) :
    At c r itm := by
  obtain ⟨hhead, itm₀, hstop, hraw⟩ := bundleBegin_some h
  have hbound := hfits.endPtr
  rw [Fits] at hfits
  have hsixteen : (16 : Addr).toNat = 16 := rfl
  rw [reader_ptr] at hstop
  obtain ⟨hptr, hle⟩ := overflow_ok hhead (by rw [reader_ptr]; omega)
  have hskip : ((c.reader.advance 8).advance 8).ptr = (c.reader.advance 16).ptr := by
    simp only [Reader.advance_ptr, BitVec.add_assoc]
    rfl
  have hend : ((c.reader.advance 8).advance 8).endPtr = c.buf + c.len := by
    rw [Reader.advance_endPtr, Reader.advance_endPtr, reader_endPtr]
  rw [reader_ptr, reader_endPtr] at hle
  rw [← hskip, reader_ptr] at hptr
  exact (at_raw hfits hend (hstop.trans hend.symm) (by omega) (by rw [hend]; omega) hraw).1

lemma At.not_end (h : At c r itm) : readerItemIsEnd r itm = false := by
  have hupper := h.upper
  rw [readerItemIsEnd, decide_eq_false_iff_not, BitVec.lt_def, h.stop]
  omega

lemma At.within (h : At c r itm) (hfits : Fits c) (hitm : Unwrapped itm) :
    Within itm.body itm.extent c.buf c.len ∧ itm.extent.toNat + 20 ≤ c.len.toNat := by
  have hbound := hfits.endPtr
  have hlower := h.lower
  rw [Unwrapped, h.body] at hitm
  have hle := (overflow_ok h.checked hitm).2
  rw [h.endPtr] at hle
  rw [← h.body] at hle hlower
  exact ⟨⟨by omega, by omega⟩, by omega⟩

/-- One turn of the loop moves the cursor over the item and the next header. -/
lemma At.next (h : At c r itm) (hfits : Fits c) (hitm : Unwrapped itm)
    (hnext : readerItemNext itm m r = .ok (some itm', r')) :
    At c r' itm' ∧ r'.ptr.toNat = r.ptr.toNat + itm.extent.toNat + 4 := by
  have hlower := h.lower
  rw [Unwrapped, h.body] at hitm
  obtain ⟨hptr, hle⟩ := overflow_ok h.checked hitm
  rw [itemNext_eq] at hnext
  have hend : (r.advance itm.extent).endPtr = r.endPtr := Reader.advance_endPtr _ _
  obtain ⟨hat, hmove⟩ := at_raw hfits (hend.trans h.endPtr) (h.stop.trans hend.symm) (by omega)
    (by rw [hend]; omega) hnext
  exact ⟨hat, by omega⟩

/-- The cursor only moves on. So what holds at a loop test whenever it holds at the next one
holds at all of them. -/
@[elab_as_elim]
theorem At.induction (hfits : Fits c) {P : Reader → Item → Prop}
    (hstep : ∀ r itm, At c r itm → (∀ r' itm', Unwrapped itm →
      readerItemNext itm m r = .ok (some itm', r') → P r' itm') → P r itm)
    (h : At c r itm) : P r itm := by
  induction hk : (c.buf + c.len).toNat - r.ptr.toNat using Nat.strong_induction_on
    generalizing r itm with
  | h k ih =>
    refine hstep r itm h fun r' itm' hitm hnext => ?_
    obtain ⟨hat, hmove⟩ := h.next hfits hitm hnext
    have hupper := hat.upper
    rw [hat.endPtr] at hupper
    exact ih _ (by omega) hat rfl

/-- No item that the run below `c` comes to has a size that wraps around. -/
def ItemsUnwrapped (E : Env σ) (m : Memory) (c : Call σ) : Prop :=
  ∀ d app r itm, Calls E m c d → Enters E m d app r itm → Unwrapped itm

lemma ItemsUnwrapped.below {c d : Call σ} (h : ItemsUnwrapped E m c) (hd : Calls E m c d) :
    ItemsUnwrapped E m d :=
  fun _ _ _ _ he henter => h _ _ _ _ (hd.trans he) henter

/-- No item that the run below `c` comes to has a size with its sign bit set. -/
def ItemsNonneg (E : Env σ) (m : Memory) (c : Call σ) : Prop :=
  ∀ d app r itm, Calls E m c d → Enters E m d app r itm → 0 ≤ itm.size.toInt

lemma visits_at {app : App σ} (hfits : Fits c)
    (hok : ∀ app r itm, Enters E m c app r itm → At c r itm → Unwrapped itm)
    (h : Visits E m c app r itm) : At c r itm := by
  induction h with
  | first _ hbegin => exact at_first hfits hbegin
  | next hvisit hend _ hnext ih => exact (ih.next hfits (hok _ _ _ ⟨hvisit, hend⟩ ih) hnext).1

/-- The calls below `c` get ranges inside the range of `c` as long as no item at a loop test of
such a call wraps around. -/
lemma calls_within {d : Call σ} (hfits : Fits c)
    (hok : ∀ d app r itm, Calls E m c d → Fits d → Within d.buf d.len c.buf c.len →
      Enters E m d app r itm → At d r itm → Unwrapped itm)
    (h : Calls E m c d) : Fits d ∧ Within d.buf d.len c.buf c.len := by
  induction h with
  | root => exact ⟨hfits, ⟨le_rfl, le_rfl⟩⟩
  | item hcall henter ih =>
    obtain ⟨hd, hin⟩ := ih
    have hat := visits_at hd (fun _ _ _ => hok _ _ _ _ hcall hd hin) henter.1
    have hitm := (hat.within hd (hok _ _ _ _ hcall hd hin henter hat)).1
    exact ⟨hd.item hitm, hitm.trans hin⟩

/-- For an item that the run comes to, its place may be taken for granted. -/
lemma unwrapped_of_at (hfits : Fits c)
    (hok : ∀ d app r itm, Calls E m c d → Fits d → Within d.buf d.len c.buf c.len →
      Enters E m d app r itm → At d r itm → Unwrapped itm) : ItemsUnwrapped E m c := by
  intro d app r itm hcall henter
  obtain ⟨hd, hin⟩ := calls_within hfits hok hcall
  have hat := visits_at hd (fun _ _ _ => hok _ _ _ _ hcall hd hin) henter.1
  exact hok d app r itm hcall hd hin henter hat

lemma ItemsUnwrapped.calls {d : Call σ} (hfits : Fits c) (hok : ItemsUnwrapped E m c)
    (h : Calls E m c d) : Fits d ∧ Within d.buf d.len c.buf c.len :=
  calls_within hfits (fun _ _ _ _ hcall _ _ henter _ => hok _ _ _ _ hcall henter) h

lemma ItemsUnwrapped.visits {app : App σ} (hfits : Fits c) (hok : ItemsUnwrapped E m c)
    (h : Visits E m c app r itm) : At c r itm :=
  visits_at hfits (fun _ _ _ henter _ => hok _ _ _ _ Calls.root henter) h

/-- An item of a buffer in user space wraps around exactly if its size is negative. -/
lemma At.unwrapped_iff {d : Call σ} (hat : At d r itm) (hd : Fits d)
    (hin : Within d.buf d.len c.buf c.len) (hlow : 2 ^ 31 ≤ c.buf.toNat)
    (hhigh : c.buf.toNat + c.len.toNat + 2 ^ 31 ≤ 2 ^ 64) :
    Unwrapped itm ↔ 0 ≤ itm.size.toInt := by
  have hend := hd.endPtr
  have hupper := hat.upper
  have hlower := hat.lower
  have hleft := hin.lower
  have hright := hin.upper
  rw [hat.endPtr] at hupper
  rw [← hat.body] at hupper hlower
  exact unwrapped_iff_nonneg (by omega) (by omega)

/-- In user space the sizes that wrap around are the negative ones. -/
theorem unwrapped_iff_itemsNonneg (hfits : Fits c) (hlow : 2 ^ 31 ≤ c.buf.toNat)
    (hhigh : c.buf.toNat + c.len.toNat + 2 ^ 31 ≤ 2 ^ 64) :
    ItemsUnwrapped E m c ↔ ItemsNonneg E m c := by
  constructor
  · intro hok d app r itm hcall henter
    obtain ⟨hd, hin⟩ := hok.calls hfits hcall
    have hat := (hok.below hcall).visits hd henter.1
    exact (hat.unwrapped_iff hd hin hlow hhigh).mp (hok d app r itm hcall henter)
  · intro hok
    refine unwrapped_of_at hfits fun d app r itm hcall hd hin henter hat => ?_
    exact (hat.unwrapped_iff hd hin hlow hhigh).mpr (hok d app r itm hcall henter)

/-- The call puts its bytes on the schedule. -/
def Schedules (m : Memory) (d : Call σ) : Prop :=
  readerIsBundle m d.reader = .ok false ∧ readerIsMessage m d.reader = .ok true ∧
    d.timetag ≠ oscImmediate

/-- Every recursive call gets a range inside its bundle, and every block allocated for
the schedule has room for a copy of bytes of the packet. -/
structure Contained (E : Env σ) (m : Memory) (c : Call σ) : Prop where
  items : ∀ d app r itm, Calls E m c d → Enters E m d app r itm →
    Within itm.body itm.extent d.buf d.len
  copies : ∀ d, Calls E m c d → Schedules m d →
    (sizeofSched + d.len).toNat = sizeofSched.toNat + d.len.toNat ∧
      Within d.buf d.len c.buf c.len

lemma contained_of_unwrapped (hfits : Fits c) (hlen : c.len.toNat < 2 ^ 31)
    (hok : ItemsUnwrapped E m c) : Contained E m c := by
  refine ⟨fun d app r itm hcall henter => ?_, fun d hcall _ => ?_⟩
  · have hd := (hok.calls hfits hcall).1
    have hat := (hok.below hcall).visits hd henter.1
    exact (hat.within hd (hok _ _ _ _ hcall henter)).1
  · have hin := (hok.calls hfits hcall).2
    have hlower := hin.lower
    have hupper := hin.upper
    have hhead : sizeofSched.toNat = 32 := rfl
    refine ⟨?_, hin⟩
    rw [BitVec.toNat_add, Nat.mod_eq_of_lt (by omega)]

lemma Contained.fits {d : Call σ} (hfits : Fits c) (h : Contained E m c)
    (hd : Calls E m c d) : Fits d := by
  induction hd with
  | root => exact hfits
  | item hcall henter ih => exact ih.item (h.items _ _ _ _ hcall henter)

lemma unwrapped_of_contained (hfits : Fits c) (h : Contained E m c) :
    ItemsUnwrapped E m c := by
  intro d app r itm hcall henter
  have hd := h.fits hfits hcall
  have hupper := (h.items d app r itm hcall henter).upper
  rw [Fits] at hd
  rw [Unwrapped]
  omega

/-- The nested lengths stay inside the packet exactly when no item size wraps around, which in
user space is when none is negative. -/
theorem contained_iff_unwrapped (E : Env σ) (m : Memory) (c : Call σ) (hfits : Fits c)
    (hlen : c.len.toNat < 2 ^ 31) : (Contained E m c ↔ ItemsUnwrapped E m c) ∧
      (2 ^ 31 ≤ c.buf.toNat → c.buf.toNat + c.len.toNat + 2 ^ 31 ≤ 2 ^ 64 →
        (Contained E m c ↔ ItemsNonneg E m c)) := by
  have hiff : Contained E m c ↔ ItemsUnwrapped E m c :=
    ⟨unwrapped_of_contained hfits, contained_of_unwrapped hfits hlen⟩
  refine ⟨hiff, fun hlow hhigh => ?_⟩
  rw [hiff]
  exact unwrapped_iff_itemsNonneg hfits hlow hhigh

section Packets

def quietEnv : Env Unit := ⟨fun _ _ _ _ => .ok (), fun _ _ => true⟩

/-- The handler is called for the packet `bs`, alone in memory. -/
def loneCall (bs : List Byte) : Call Unit :=
  ⟨⟨(), [], 0⟩, oscImmediate, 0x10000, BitVec.ofNat 64 bs.length⟩

def slashA : List Byte := [slash, 0x61, 0, 0, comma, 0, 0, 0]

/-- A bundle of a bundle with one message, and of a second message. -/
def nested : List Byte :=
  bundleTag ++ bytesBE 8 1 ++
    [0, 0, 0, 28] ++ (bundleTag ++ bytesBE 8 1 ++ [0, 0, 0, 8] ++ slashA) ++
    [0, 0, 0, 8] ++ slashA

/-- A bundle whose item says that it has `-4` bytes. -/
def negativeItem : List Byte :=
  bundleTag ++ (bytesBE 8 1 ++ [0xff, 0xff, 0xff, 0xfc, 0x00, 0x00, 0x00, 0x00])

/-- What holds at the first loop test and from one to the next holds at all of them. -/
@[elab_as_elim]
lemma visits_among {P : Reader → Item → Prop} {app : App σ}
    (hfirst : ∀ r itm, readerBundleBegin c.len m c.reader = .ok (some itm, r) → P r itm)
    (hnext : ∀ r itm r' itm', P r itm → readerItemNext itm m r = .ok (some itm', r') → P r' itm')
    (h : Visits E m c app r itm) : P r itm := by
  induction h with
  | first _ hbegin => exact hfirst _ _ hbegin
  | next _ _ _ hread ih => exact hnext _ _ _ _ ih hread

/-- The handler is called for `nested` in user space. -/
def nestedCall : Call Unit := ⟨⟨(), [], 0⟩, oscImmediate, 0x20000000000, 60⟩

def nestedImage : Memory := image 0x20000000000 nested

/-- The packet itself, the bundle in it, or bytes that are no bundle. -/
def NestedRange (d : Call Unit) : Prop :=
  (d.buf = 0x20000000000 ∧ d.len = 60) ∨ (d.buf = 0x20000000014 ∧ d.len = 28) ∨
    readerIsBundle nestedImage d.reader = .ok false

section Nested
variable {d : Call Unit} {app : App Unit} {r : Reader} {itm : Item}

lemma nested_outer (hbuf : d.buf = 0x20000000000) (hlen : d.len = 60)
    (h : Visits quietEnv nestedImage d app r itm) :
    (r = ⟨0x20000000000, 0x20000000014, 0x2000000003c⟩ ∧
      itm = ⟨28, 0x20000000014, 1, 0x2000000003c⟩) ∨
    (r = ⟨0x20000000000, 0x20000000034, 0x2000000003c⟩ ∧
      itm = ⟨8, 0x20000000034, 1, 0x2000000003c⟩) := by
  refine visits_among ?_ ?_ h
  · intro r itm hbegin
    have hfirst : readerBundleBegin 60 nestedImage (readerInitialize 0x20000000000 60) =
        .ok (some ⟨28, 0x20000000014, 1, 0x2000000003c⟩,
          ⟨0x20000000000, 0x20000000014, 0x2000000003c⟩) := by decide +kernel
    rw [Call.reader, hbuf, hlen, hfirst] at hbegin
    cases hbegin
    exact Or.inl ⟨rfl, rfl⟩
  · rintro r itm r' itm' (⟨rfl, rfl⟩ | ⟨rfl, rfl⟩) hread
    · have hsecond : readerItemNext ⟨28, 0x20000000014, 1, 0x2000000003c⟩ nestedImage
          ⟨0x20000000000, 0x20000000014, 0x2000000003c⟩ =
          .ok (some ⟨8, 0x20000000034, 1, 0x2000000003c⟩,
            ⟨0x20000000000, 0x20000000034, 0x2000000003c⟩) := by decide +kernel
      rw [hsecond] at hread
      cases hread
      exact Or.inr ⟨rfl, rfl⟩
    · have hlast : readerItemNext ⟨8, 0x20000000034, 1, 0x2000000003c⟩ nestedImage
          ⟨0x20000000000, 0x20000000034, 0x2000000003c⟩ =
          .ok (none, ⟨0x20000000000, 0x2000000003c, 0x2000000003c⟩) := by decide +kernel
      rw [hlast] at hread
      cases hread

lemma nested_inner (hbuf : d.buf = 0x20000000014) (hlen : d.len = 28)
    (h : Visits quietEnv nestedImage d app r itm) :
    r = ⟨0x20000000014, 0x20000000028, 0x20000000030⟩ ∧
      itm = ⟨8, 0x20000000028, 1, 0x20000000030⟩ := by
  refine visits_among ?_ ?_ h
  · intro r itm hbegin
    have hfirst : readerBundleBegin 28 nestedImage (readerInitialize 0x20000000014 28) =
        .ok (some ⟨8, 0x20000000028, 1, 0x20000000030⟩,
          ⟨0x20000000014, 0x20000000028, 0x20000000030⟩) := by decide +kernel
    rw [Call.reader, hbuf, hlen, hfirst] at hbegin
    cases hbegin
    exact ⟨rfl, rfl⟩
  · rintro r itm r' itm' ⟨rfl, rfl⟩ hread
    have hlast : readerItemNext ⟨8, 0x20000000028, 1, 0x20000000030⟩ nestedImage
        ⟨0x20000000014, 0x20000000028, 0x20000000030⟩ =
        .ok (none, ⟨0x20000000014, 0x20000000030, 0x20000000030⟩) := by decide +kernel
    rw [hlast] at hread
    cases hread

lemma nested_item (hd : NestedRange d) (h : Visits quietEnv nestedImage d app r itm) :
    NestedRange (itemCall app itm) ∧ 0 ≤ itm.size.toInt := by
  rcases hd with ⟨hbuf, hlen⟩ | ⟨hbuf, hlen⟩ | hleaf
  · obtain ⟨-, rfl⟩ | ⟨-, rfl⟩ := nested_outer hbuf hlen h
    · exact ⟨Or.inr (Or.inl ⟨rfl, rfl⟩), by decide⟩
    · have hmessage : readerIsBundle nestedImage (readerInitialize 0x20000000034 8) =
          .ok false := by decide +kernel
      exact ⟨Or.inr (Or.inr hmessage), by decide⟩
  · obtain ⟨-, rfl⟩ := nested_inner hbuf hlen h
    have hmessage : readerIsBundle nestedImage (readerInitialize 0x20000000028 8) = .ok false := by
      decide +kernel
    exact ⟨Or.inr (Or.inr hmessage), by decide⟩
  · exact absurd h (not_visits hleaf)

lemma nested_calls (h : Calls quietEnv nestedImage nestedCall d) : NestedRange d := by
  induction h with
  | root => exact Or.inl ⟨rfl, rfl⟩
  | item _ henter ih => exact (nested_item ih henter.1).1

lemma nested_nonneg : ItemsNonneg quietEnv nestedImage nestedCall :=
  fun _ _ _ _ hcall henter => (nested_item (nested_calls hcall) henter.1).2

end Nested

theorem nested_contained : Contained quietEnv nestedImage nestedCall :=
  ((contained_iff_unwrapped quietEnv nestedImage nestedCall (by decide) (by decide)).2 (by decide)
    (by decide)).mpr nested_nonneg

lemma negativeItem_first :
    Visits quietEnv (image 0x10000 negativeItem) (loneCall negativeItem) ⟨(), [], 0⟩
      ⟨0x10000, 0x10014, 0x10018⟩ ⟨0xfffffffc, 0x10014, 1, 0x10018⟩ :=
  Visits.first (by decide +kernel) (by decide +kernel)

/-- The item of `-4` bytes is handed on as one of `2 ^ 64 - 4` bytes. -/
theorem negativeItem_not_contained :
    ¬ ∀ (E : Env Unit) (m : Memory) (c : Call Unit), Fits c → c.len.toNat < 2 ^ 31 →
      Contained E m c := by
  intro h
  have hin := (h quietEnv (image 0x10000 negativeItem) (loneCall negativeItem) (by decide)
    (by decide)).items _ _ _ _ Calls.root ⟨negativeItem_first, by decide⟩
  exact absurd hin.upper (by decide)

end Packets

end Osc2FtdiDmx.PacketRanges
