import Osc2FtdiDmx.ArgumentBytes

/-! The walk of `_priority` over the arguments of a message. It stays in the message, goes on
and never comes back to a byte that it has read, exactly if no blob length that it reads wraps
around when it is padded and added to the cursor. -/
namespace Osc2FtdiDmx.ArgumentWalk
open BytesEndian OscMemory OscReader Get SlotStore OscTree TreeWalk
open PacketRanges PacketSurroundings MessageSurroundings ArgumentBytes MessageRefusal

section Header
variable {m : Memory} {base : Addr} {bs : List Byte} {r r' : Reader} {arg : Arg} {len : Addr}

lemma ahead_head (h : Between base bs r) (hm : Roofed m) :
    Ahead m base bs (readerArgHead arg len) r := by
  refine (ahead_need h _).andThen fun _ r₁ _ hr₁ => (ahead_cursor hr₁).andThen fun p r₂ _ hr₂ =>
    (ahead_string hr₂ hm).andThen fun path r₃ _ hr₃ =>
      (ahead_string hr₃ hm).andThen fun type r₄ _ hr₄ =>
        (ahead_peek hr₄ _).andThen fun c r₅ _ hr₅ => ?_
  split_ifs
  · exact ahead_fail hr₅
  · exact ahead_pure hr₅ _

end Header

/-- A message of less than `2 ^ 31` bytes in memory. -/
structure Hosted (m : Memory) (base : Addr) (bs : List Byte) : Prop where
  holds : Holds m base bs
  below : base.toNat + bs.length + 16 < 2 ^ 64
  roofed : Roofed m
  short : bs.length < 2 ^ 31

/-- The reader that `_handle_osc_message` gets, over the whole message. -/
def messageReader (base : Addr) (bs : List Byte) : Reader :=
  readerInitialize base (BitVec.ofNat 64 bs.length)

/-- The walk over the arguments of a message whose path and type string are read: the header
reads the first one, and `_priority` takes one for each visited pair of channel and priority. -/
structure Walk (m : Memory) (base : Addr) (bs : List Byte) where
  types : Arg
  head : Reader
  parsed : readerArgHead ⟨0, 0, none, 0, 0⟩ (BitVec.ofNat 64 bs.length) m
    (messageReader base bs) = .ok (some types, head)
  pairs : ℕ
  state : ℕ → State
  start : readerArgNext types m head = .ok ((state 0).curArg, (state 0).curReader)
  visit : ∀ i < pairs, ∃ (c : Fin 512) (p : Fin 32),
    priority m p (channel c (state i)) = .ok (state (i + 1))

namespace Walk
variable {m : Memory} {base : Addr} {bs : List Byte} (w : Walk m base bs)

/-- The current argument before the step `i`, which for the header is the comma. -/
def arg : ℕ → Option Arg
  | 0 => some w.types
  | i + 1 => (w.state i).curArg

def reader : ℕ → Reader
  | 0 => w.head
  | i + 1 => (w.state i).curReader

/-- The step `i` reads an argument of type `t`. -/
structure Reads (i : ℕ) (t : OscType) (arg : Arg) : Prop where
  live : ∃ a, w.arg i = some a ∧ readerArgIsEnd m (w.reader i) a = .ok false
  result : w.arg (i + 1) = some arg
  type : HasType m arg t

/-- The cursor stays in the message and never goes back, not before a byte that an argument was
read from either; every argument is read from bytes of the message that no earlier one used, and
from nothing else but its type character. -/
structure Inside : Prop where
  within : ∀ i ≤ w.pairs + 1, base.toNat ≤ (w.reader i).ptr.toNat ∧
    (w.reader i).ptr.toNat ≤ base.toNat + bs.length
  forward : ∀ i ≤ w.pairs, (w.reader i).ptr.toNat ≤ (w.reader (i + 1)).ptr.toNat
  passed : ∀ i ≤ w.pairs, ∀ j ≤ w.pairs + 1, i < j → ∀ t arg, w.Reads i t arg →
    ∀ q ∈ argBytes t (w.reader i) arg, q.toNat < (w.reader j).ptr.toNat
  own : ∀ i ≤ w.pairs, ∀ t arg, w.Reads i t arg →
    argBytes t (w.reader i) arg ⊆ block base bs.length
  fresh : ∀ i, ∀ j ≤ w.pairs, i < j → ∀ t arg t' arg', w.Reads i t arg → w.Reads j t' arg' →
    Disjoint (argBytes t (w.reader i) arg) (argBytes t' (w.reader j) arg')
  sourced : ∀ i ≤ w.pairs, ∀ t arg, w.Reads i t arg → ∃ a, w.arg i = some a ∧
    ∀ m' : Memory, m' (a.type + 1) = m (a.type + 1) →
      Agree m m' (argBytes t (w.reader i) arg) →
        readerArgNext a m' (w.reader i) = .ok (some arg, w.reader (i + 1))

/-- If the step `i` is to read a blob, the length at the cursor does not wrap around. -/
def Fits (i : ℕ) : Prop :=
  ∀ a, w.arg i = some a → readerArgIsEnd m (w.reader i) a = .ok false →
    HasType m { a with type := a.type + 1 } .blob → BlobFits m (w.reader i)

/-- If the step `i` is to read a blob, its length is not below `-3`: from there on it is padded to
a positive number, or to zero. -/
def PaddedToNat (i : ℕ) : Prop :=
  ∀ a, w.arg i = some a → readerArgIsEnd m (w.reader i) a = .ok false →
    HasType m { a with type := a.type + 1 } .blob →
      ∀ len r, readerGetInt32 m (w.reader i) = .ok (some len, r) → -3 ≤ len.toInt

variable {w} {i j : ℕ}

lemma head_live (h : Between base bs w.head) : readerArgIsEnd m w.head w.types = .ok false := by
  have header := argHead_some w.parsed
  have hupper := h.upper
  have hptr : ¬ w.types.endPtr < w.head.ptr := by
    rw [header.stop, BitVec.lt_def]
    change ¬ (messageReader base bs).endPtr.toNat < _
    rw [← header.moved.1]
    omega
  rw [readerArgIsEnd, header.comma, ok_bind, decide_eq_false hptr]
  rfl

lemma between_head (h : Hosted m base bs) : Between base bs w.head := by
  have hbelow := h.below
  have hend : (messageReader base bs).endPtr.toNat = base.toNat + bs.length := by
    change (base + BitVec.ofNat 64 bs.length).toNat = _
    rw [BitVec.toNat_add, BitVec.toNat_ofNat]
    omega
  have hreader : Between base bs (messageReader base bs) := by
    refine ⟨le_rfl, ?_, hend.le, hbelow⟩
    rw [hend]
    exact Nat.le_add_right _ _
  exact (ahead_head hreader h.roofed _ _ w.parsed).2

/-- Every step of the walk is a step of `_priority`, the header's read too. -/
lemma takes (h : Hosted m base bs) (hi : i ≤ w.pairs) :
    Takes m (w.arg i) (w.reader i) (w.arg (i + 1)) (w.reader (i + 1)) := by
  cases i with
  | zero => exact .next (head_live (between_head h)) w.start
  | succ i =>
    obtain ⟨c, p, hrun⟩ := w.visit i hi
    exact (priority_takes hrun).1

/-- A step that reads an argument reads the next one. -/
lemma Reads.next {t : OscType} {arg : Arg} (h : Hosted m base bs) (hi : i ≤ w.pairs)
    (hreads : w.Reads i t arg) :
    ∃ a, w.arg i = some a ∧ readerArgIsEnd m (w.reader i) a = .ok false ∧
      readerArgNext a m (w.reader i) = .ok (some arg, w.reader (i + 1)) ∧
      HasType m { a with type := a.type + 1 } t := by
  obtain ⟨a, harg, hlive⟩ := hreads.live
  have htakes := takes h hi
  rw [harg, hreads.result] at htakes
  have hnext := htakes.live hlive
  obtain ⟨c, hload, hc⟩ := hreads.type
  rw [(argRaw_some hnext).1.type] at hload
  exact ⟨a, harg, hlive, hnext, c, hload, hc⟩

lemma step_inside (h : Hosted m base bs) (hi : i ≤ w.pairs)
    (hbetween : Between base bs (w.reader i)) (hfits : w.Fits i) :
    (w.reader i).ptr.toNat ≤ (w.reader (i + 1)).ptr.toNat ∧ Between base bs (w.reader (i + 1)) := by
  rcases (takes h hi).inv with ⟨-, hreader⟩ | ⟨a, harg, hlive, hnext⟩
  · rw [hreader]
    exact ⟨le_rfl, hbetween⟩
  · exact ahead_argRaw hbetween h.roofed (hfits a harg hlive) _ _ hnext

/-- Up to the first length that wraps around the cursor is in the message. -/
lemma between_reader (h : Hosted m base bs) (hi : i ≤ w.pairs + 1) (hfits : ∀ j < i, w.Fits j) :
    Between base bs (w.reader i) := by
  induction i with
  | zero => exact between_head h
  | succ i ih =>
    have hbetween := ih (by omega) fun j hj => hfits j (by omega)
    exact (step_inside h (by omega) hbetween (hfits i (by omega))).2

lemma reads_span {t : OscType} {arg : Arg} (h : Hosted m base bs) (hi : i ≤ w.pairs)
    (hbetween : Between base bs (w.reader i)) (hfits : w.Fits i) (hreads : w.Reads i t arg) :
    argBytes t (w.reader i) arg ⊆ span (w.reader i) (w.reader (i + 1)) := by
  obtain ⟨a, harg, hlive, hnext, htype⟩ := hreads.next h hi
  refine argRaw_bytes h.roofed hbetween hnext htype ?_
  rintro rfl
  exact hfits a harg hlive htype

/-- The value that a step reads comes from the bytes of its argument. -/
lemma reads_sourced {t : OscType} {arg : Arg} (h : Hosted m base bs) (hi : i ≤ w.pairs)
    (hbetween : Between base bs (w.reader i)) (hreads : w.Reads i t arg) :
    ∃ a, w.arg i = some a ∧ ∀ m' : Memory, m' (a.type + 1) = m (a.type + 1) →
      Agree m m' (argBytes t (w.reader i) arg) →
        readerArgNext a m' (w.reader i) = .ok (some arg, w.reader (i + 1)) := by
  obtain ⟨a, harg, -, hnext, htype⟩ := hreads.next h hi
  refine ⟨a, harg, fun m' hsame hagree => ?_⟩
  exact argRaw_agree h.roofed hbetween h.short hnext htype hsame hagree

lemma reader_mono (hforward : ∀ k ≤ w.pairs,
      (w.reader k).ptr.toNat ≤ (w.reader (k + 1)).ptr.toNat)
    (hij : i ≤ j) (hj : j ≤ w.pairs + 1) : (w.reader i).ptr.toNat ≤ (w.reader j).ptr.toNat := by
  induction j, hij using Nat.le_induction with
  | base => exact le_rfl
  | succ j _ ih => exact (ih (by omega)).trans (hforward j (by omega))

theorem inside_of_fits (h : Hosted m base bs) (hfits : ∀ i ≤ w.pairs, w.Fits i) : w.Inside := by
  have hbetween (i : ℕ) (hi : i ≤ w.pairs + 1) : Between base bs (w.reader i) :=
    between_reader h hi fun j hj => hfits j (by omega)
  have hforward (i : ℕ) (hi : i ≤ w.pairs) :
      (w.reader i).ptr.toNat ≤ (w.reader (i + 1)).ptr.toNat :=
    (step_inside h hi (hbetween i (by omega)) (hfits i hi)).1
  have hspan {i : ℕ} (hi : i ≤ w.pairs) {t : OscType} {arg : Arg} (hreads : w.Reads i t arg) :
      argBytes t (w.reader i) arg ⊆ span (w.reader i) (w.reader (i + 1)) :=
    reads_span h hi (hbetween i (by omega)) (hfits i hi) hreads
  refine ⟨fun i hi => ?_, hforward, ?_, ?_, ?_, ?_⟩
  · have hupper := (hbetween i hi).upper
    have hstop := (hbetween i hi).stop
    exact ⟨(hbetween i hi).lower, by omega⟩
  · intro i hi j hj hij t arg hreads q hq
    exact (hspan hi hreads hq).2.trans_le (reader_mono hforward hij hj)
  · intro i hi t arg hreads q hq
    obtain ⟨hlow, hhigh⟩ := hspan hi hreads hq
    have hlower := (hbetween i (by omega)).lower
    have hupper := (hbetween (i + 1) (by omega)).upper
    have hstop := (hbetween (i + 1) (by omega)).stop
    exact ⟨by omega, by omega⟩
  · intro i j hj hij t arg t' arg' hreads hreads'
    rw [Set.disjoint_left]
    intro q hq hq'
    have hlt := (hspan (by omega) hreads hq).2
    have hle := (hspan hj hreads' hq').1
    have hmono := reader_mono hforward (show i + 1 ≤ j by omega) (by omega)
    omega
  · intro i hi t arg hreads
    exact reads_sourced h hi (hbetween i (by omega)) hreads

/-- A length that wraps around takes the cursor back to the length's own bytes, or further. -/
theorem fits_of_inside (h : Hosted m base bs) (hin : w.Inside) : ∀ i ≤ w.pairs, w.Fits i := by
  intro i
  induction i using Nat.strong_induction_on with
  | h i ih =>
    intro hi a harg hlive htype len r₁ hlen
    have hbetween := between_reader h (by omega) fun j hj => ih j hj (by omega)
    have hlow : r₁.ptr.toNat = (w.reader i).ptr.toNat + 4 :=
      field_passed (n := 4) hbetween (by omega) hlen
    by_contra hwraps
    obtain ⟨arg, r, hnext, hsame, hback⟩ := blob_wraps hbetween htype hlen (not_lt.mp hwraps)
    have htakes := takes h hi
    rw [harg] at htakes
    obtain ⟨hresult, hreader⟩ : w.arg (i + 1) = some arg ∧ w.reader (i + 1) = r := by
      simpa using (htakes.live hlive).symm.trans hnext
    have hreads : w.Reads i .blob arg := by
      refine ⟨⟨a, harg, hlive⟩, hresult, ?_⟩
      rw [HasType, hsame]
      exact htype
    have hlast : ((w.reader i).ptr + 3).toNat = (w.reader i).ptr.toNat + 3 := by
      have hupper := hbetween.upper
      have hstop := hbetween.stop
      have hbelow := hbetween.below
      rw [BitVec.toNat_add]
      exact Nat.mod_eq_of_lt (show _ + 3 < 2 ^ 64 by omega)
    have hmem : (w.reader i).ptr + 3 ∈ argBytes .blob (w.reader i) arg :=
      Or.inl ⟨by omega, by omega⟩
    have hpassed := hin.passed i hi (i + 1) (by omega) (by omega) .blob arg hreads _ hmem
    rw [hreader] at hpassed
    omega

/-- In user space the lengths that fit are those from `-3` on. -/
lemma fits_iff_paddedToNat (h : Hosted m base bs) (hlow : 2 ^ 31 ≤ base.toNat)
    (hhigh : base.toNat + bs.length + 2 ^ 31 + 3 < 2 ^ 64) :
    (∀ i ≤ w.pairs, w.Fits i) ↔ ∀ i ≤ w.pairs, w.PaddedToNat i := by
  constructor
  · intro hfits i hi a harg hlive htype
    have hbetween : Between base bs (w.reader i) :=
      between_reader h (by omega) fun j hj => hfits j (by omega)
    exact (blobFits_iff hbetween hlow hhigh).mp (hfits i hi a harg hlive htype)
  · intro hlengths i
    -- the cursor is in the message as long as the lengths before it fit
    induction i using Nat.strong_induction_on with
    | h i ih =>
      intro hi a harg hlive htype
      have hbetween : Between base bs (w.reader i) :=
        between_reader h (by omega) fun j hj => ih j hj (by omega)
      exact (blobFits_iff hbetween hlow hhigh).mpr (hlengths i hi a harg hlive htype)

end Walk

section Handled
variable {m : Memory} {base : Addr} {bs : List Byte} {s t u : State} {n k : ℕ}

/-- `_priority` is called for `n` pairs of channel and priority, one after the other. -/
inductive Visits (m : Memory) : ℕ → State → State → Prop
  | nil {s : State} : Visits m 0 s s
  | cons {n : ℕ} {s t u : State} (c : Fin 512) (p : Fin 32) :
      priority m p (channel c s) = .ok t → Visits m n t u → Visits m (n + 1) s u

lemma Visits.append (h : Visits m n s t) (h' : Visits m k t u) : Visits m (n + k) s u := by
  induction h with
  | nil =>
    rw [Nat.zero_add]
    exact h'
  | cons c p hrun _ ih =>
    rw [Nat.add_right_comm]
    exact .cons c p hrun (ih h')

/-- The states in between, by their number. -/
lemma Visits.path (h : Visits m n s t) :
    ∃ f : ℕ → State, f 0 = s ∧ f n = t ∧ ∀ i < n, ∃ (c : Fin 512) (p : Fin 32),
      priority m p (channel c (f i)) = .ok (f (i + 1)) := by
  induction h with
  | nil => exact ⟨fun _ => _, rfl, rfl, fun i hi => absurd hi (Nat.not_lt_zero i)⟩
  | @cons n s t u c p hrun _ ih =>
    obtain ⟨f, hfirst, hlast, hnext⟩ := ih
    refine ⟨fun i => Nat.rec s (fun j _ => f j) i, rfl, hlast, fun i hi => ?_⟩
    cases i with
    | zero =>
      refine ⟨c, p, ?_⟩
      rw [← hfirst] at hrun
      exact hrun
    | succ i => exact hnext i (by omega)

/-- The channel that is set before the first visit does not matter. -/
lemma Visits.channel {c : Fin 512} (h : Visits m n (channel c s) t) :
    ∃ t' chan, Visits m n s t' ∧ t = { t' with curChannel := chan } := by
  cases h with
  | nil => exact ⟨s, _, .nil, rfl⟩
  | cons c' p hrun hrest => exact ⟨t, _, .cons c' p hrun hrest, rfl⟩

lemma row_visits {c : Fin 512} (prios : List (Fin 32))
    (h : visitRow m prios (channel c s) = .ok u) :
    ∃ t, Visits m prios.length s t ∧ u = channel c t := by
  induction prios generalizing s with
  | nil =>
    cases h
    exact ⟨s, .nil, rfl⟩
  | cons p prios ih =>
    rw [visitRow, List.foldlM_cons] at h
    obtain ⟨s₁, hfirst, hrest⟩ := bind_eq_ok.mp h
    have hkeep : channel c s₁ = s₁ := by
      have hchan := (priority_takes hfirst).2
      cases s₁
      cases hchan
      rfl
    rw [← hkeep] at hrest
    obtain ⟨t, hvisits, hu⟩ := ih hrest
    exact ⟨t, .cons c p hfirst hvisits, hu⟩

lemma rows_visits (chans : List (Fin 512)) (prios : List (Fin 32))
    (h : visitRows m chans prios s = .ok u) :
    ∃ t chan, Visits m (chans.length * prios.length) s t ∧ u = { t with curChannel := chan } := by
  induction chans generalizing s with
  | nil =>
    cases h
    rw [List.length_nil, Nat.zero_mul]
    exact ⟨u, _, .nil, rfl⟩
  | cons c chans ih =>
    rw [visitRows, List.foldlM_cons] at h
    obtain ⟨s₁, hrow, hrest⟩ := bind_eq_ok.mp h
    obtain ⟨t₁, hvisits, rfl⟩ := row_visits prios hrow
    obtain ⟨t₂, chan, hvisits', rfl⟩ := ih hrest
    obtain ⟨t₃, chan', hvisits'', rfl⟩ := hvisits'.channel
    rw [List.length_cons, Nat.succ_mul, Nat.add_comm]
    exact ⟨t₃, chan, hvisits.append hvisits'', rfl⟩

/-- What the message handler does is a walk over the arguments, with a step of `_priority` for
each pair that the path addresses. -/
theorem handled_walk {pm : List Byte → List Byte → Bool} (hslash : load m base = .ok slash)
    (hrun : handleOscMessage pm m (messageReader base bs) (BitVec.ofNat 64 bs.length) s = .ok u) :
    ∃ (w : Walk m base bs) (path : List Byte) (chan : BitVec 16), Text m (base + 1) path ∧
      w.pairs = (visited pm path).length ∧ (w.state 0).slots = s.slots ∧
      u = { w.state w.pairs with curChannel := chan } := by
  obtain ⟨arg, r, hbegin, hwalk⟩ := handled_some hrun
  obtain ⟨path, hpath⟩ := begin_path hbegin hslash
  obtain ⟨chans, prios, hvisited, hrows⟩ := treesInternal_walk pm m hpath
  rw [hrows] at hwalk
  obtain ⟨t, chan, hvisits, hu⟩ := rows_visits chans prios hwalk
  obtain ⟨f, hfirst, hlast, hnext⟩ := hvisits.path
  have hptr : arg.path = base := (messageBegin_some hbegin).1
  rw [hptr] at hpath
  rw [readerMessageBegin, argBegin_head] at hbegin
  obtain ⟨types, head, hparsed, hstart⟩ := bind_ok_some.mp hbegin
  have hstate : readerArgNext types m head = .ok ((f 0).curArg, (f 0).curReader) := by
    rw [hfirst]
    exact hstart
  refine ⟨⟨types, head, hparsed, _, f, hstate, hnext⟩, path, chan, hpath, ?_, ?_, ?_⟩
  · rw [hvisited, List.length_product]
  · change (f 0).slots = _
    rw [hfirst]
  · change u = { f _ with curChannel := chan }
    rw [hlast]
    exact hu

end Handled

namespace Walk
variable {m : Memory} {base : Addr} {bs : List Byte}

/-- The cursor stays inside the message exactly if every blob length that is read fits, which in
user space is one that is padded to a number. Every run of the message handler is such a walk. -/
theorem inside_iff_fits (h : Hosted m base bs) :
    (∀ w : Walk m base bs, (w.Inside ↔ ∀ i ≤ w.pairs, w.Fits i) ∧
      (2 ^ 31 ≤ base.toNat → base.toNat + bs.length + 2 ^ 31 + 3 < 2 ^ 64 →
        (w.Inside ↔ ∀ i ≤ w.pairs, w.PaddedToNat i))) ∧
    ∀ pm s u, load m base = .ok slash →
      handleOscMessage pm m (messageReader base bs) (BitVec.ofNat 64 bs.length) s = .ok u →
      ∃ (w : Walk m base bs) (path : List Byte) (chan : BitVec 16), Text m (base + 1) path ∧
        w.pairs = (visited pm path).length ∧ (w.state 0).slots = s.slots ∧
        u = { w.state w.pairs with curChannel := chan } := by
  constructor
  · intro w
    have hinside : w.Inside ↔ ∀ i ≤ w.pairs, w.Fits i := ⟨fits_of_inside h, inside_of_fits h⟩
    refine ⟨hinside, fun hlow hhigh => ?_⟩
    rw [hinside]
    exact fits_iff_paddedToNat h hlow hhigh
  · intro pm s u hslash hrun
    exact handled_walk hslash hrun

lemma hosted_image (hbelow : base.toNat + bs.length + 16 < 2 ^ 64) (hshort : bs.length < 2 ^ 31) :
    Hosted (image base bs) base bs := by
  refine ⟨(placed_image hbelow.le).holds, hbelow, fun p b hp => ?_, hshort⟩
  have hin := (List.getElem?_eq_some_iff.mp hp).1
  rw [BitVec.toNat_sub] at hin
  omega

/-- The path `/dmx/0/0` and the types of a blob and an integer, in front of the arguments. -/
def blobInt (args : List Byte) : List Byte :=
  [slash, 0x64, 0x6d, 0x78, slash, 0x30, slash, 0x30, 0, 0, 0, 0, comma, 0x62, 0x69, 0] ++ args

/-- A blob of one byte, and the number five. -/
def oneByte : List Byte := blobInt [0, 0, 0, 1, 0xff, 0, 0, 0, 0, 0, 0, 5]

def oneByteState : State :=
  { zeroState with
    curReader := ⟨0x10000, 0x10018, 0x1001c⟩
    curArg := some ⟨0x1000d, 1, some (.b 0x10014), 0x10000, 0x1001c⟩ }

lemma oneByte_start : readerArgNext ⟨0x1000c, 0, none, 0x10000, 0x1001c⟩ (image 0x10000 oneByte)
    ⟨0x10000, 0x10010, 0x1001c⟩ = .ok (oneByteState.curArg, oneByteState.curReader) := by
  decide +kernel

def oneByteWalk (t : State) (hvisit : priority (image 0x10000 oneByte) 0
    (channel 0 oneByteState) = .ok t) : Walk (image 0x10000 oneByte) 0x10000 oneByte where
  types := ⟨0x1000c, 0, none, 0x10000, 0x1001c⟩
  head := ⟨0x10000, 0x10010, 0x1001c⟩
  parsed := by decide +kernel
  pairs := 1
  state i := if i = 0 then oneByteState else t
  start := oneByte_start
  visit i hi := by
    obtain rfl : i = 0 := by omega
    exact ⟨⟨0, by decide⟩, ⟨0, by decide⟩, hvisit⟩

lemma oneByte_fits {t : State} {hvisit} : ∀ i ≤ 1, (oneByteWalk t hvisit).Fits i := by
  intro i hi a harg _ ⟨c, hload, hc⟩ len r₁ hlen
  rcases Nat.le_one_iff_eq_zero_or_eq_one.mp hi with rfl | rfl
  · have hone : readerGetInt32 (image 0x10000 oneByte) ⟨0x10000, 0x10010, 0x1001c⟩ =
        .ok (some 1, ⟨0x10000, 0x10014, 0x1001c⟩) := by decide +kernel
    cases hone.symm.trans hlen
    decide
  · cases harg
    have hint : load (image 0x10000 oneByte) 0x1000e = .ok 0x69 := by decide +kernel
    cases hint.symm.trans hload
    exact absurd hc (by decide)

theorem oneByte_inside : ∃ w : Walk (image 0x10000 oneByte) 0x10000 oneByte,
    w.pairs = 1 ∧ w.Inside := by
  obtain ⟨t, hvisit⟩ : ∃ t, priority (image 0x10000 oneByte) 0
      (channel 0 oneByteState) = .ok t :=
    takable_priority (n := 0) (⟨0, by decide⟩ : Fin 32) (by decide) <| Or.inr ⟨by decide +kernel,
      some ⟨0x1000e, 4, some (.i 5), 0x10000, 0x1001c⟩, ⟨0x10000, 0x1001c, 0x1001c⟩,
      by decide +kernel, trivial⟩
  have hhosted : Hosted (image 0x10000 oneByte) 0x10000 oneByte :=
    hosted_image (by decide) (by decide)
  exact ⟨oneByteWalk t hvisit, rfl, ((inside_iff_fits hhosted).1 _).1.mpr oneByte_fits⟩

/-- A blob of length `-8`. -/
def minusEight : List Byte := blobInt [0xff, 0xff, 0xff, 0xf8, 0, 0, 0, 5]

def minusEightWalk : Walk (image 0x10000 minusEight) 0x10000 minusEight where
  types := ⟨0x1000c, 0, none, 0x10000, 0x10018⟩
  head := ⟨0x10000, 0x10010, 0x10018⟩
  parsed := by decide +kernel
  pairs := 0
  state _ :=
    { zeroState with
      curReader := ⟨0x10000, 0x1000c, 0x10018⟩
      curArg := some ⟨0x1000d, 0xfffffff8, some (.b 0x10014), 0x10000, 0x10018⟩ }
  start := by decide +kernel
  visit i hi := absurd hi (Nat.not_lt_zero i)

/-- The cursor goes back to the type string. -/
theorem minusEight_not_inside :
    ¬ ∀ (m : Memory) (base : Addr) (bs : List Byte) (w : Walk m base bs),
      Hosted m base bs → w.Inside := by
  intro h
  have hin := h _ _ _ minusEightWalk (hosted_image (by decide) (by decide))
  exact absurd (hin.forward 0 (Nat.zero_le _)) (by decide)

end Walk

end Osc2FtdiDmx.ArgumentWalk
