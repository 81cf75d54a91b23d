import Osc2FtdiDmx.MessageSurroundings
import Osc2FtdiDmx.MessageEncoding

/-! One read of an argument: where it leaves the cursor, and the bytes that the value of the
argument comes from. The one size that may wrap around is the length of a blob. -/
namespace Osc2FtdiDmx.ArgumentBytes
open BytesEndian OscMemory OscReader ReaderSpecs Get TreeWalk MessageEncoding
open PacketRanges PacketSurroundings MessageSurroundings

/-- Nothing is mapped in the last bytes of the address space. -/
def Roofed (m : Memory) : Prop := ∀ p b, m p = some b → p.toNat + 16 < 2 ^ 64

/-- The bytes of the message from `p` on. -/
def block (p : Addr) (n : ℕ) : Set Addr := {q | p.toNat ≤ q.toNat ∧ q.toNat < p.toNat + n}

lemma block_subset {p p' : Addr} {n n' : ℕ} (hlow : p'.toNat ≤ p.toNat)
    (hhigh : p.toNat + n ≤ p'.toNat + n') : block p n ⊆ block p' n' := by
  rintro q ⟨hle, hlt⟩
  exact ⟨by omega, by omega⟩

/-- What the value points to. -/
def payload (arg : Arg) : Set Addr :=
  match arg.value with
  | some (.s p) | some (.b p) | some (.m p) | some (.S p) => block p arg.size.toInt.toNat
  | _ => ∅

/-- The bytes that an argument of type `t` is read from, at the cursor `r`: its number, or
what its pointer shows; for a blob also the length in front. -/
def argBytes (t : OscType) (r : Reader) (arg : Arg) : Set Addr :=
  match t with
  | .int32 | .float | .char | .rgba => block r.ptr 4
  | .int64 | .double | .timetag => block r.ptr 8
  | .string | .symbol | .midi => payload arg
  | .blob => block r.ptr 4 ∪ payload arg
  | .true | .false | .nil | .impulse => ∅

/-- The type character of the argument is the one of `t`. -/
def HasType (m : Memory) (arg : Arg) (t : OscType) : Prop :=
  ∃ c, load m arg.type = .ok c ∧ OscType.ofChar c = some t

/-- The address of the blob's body and its padded size have a sum below `2 ^ 64`. -/
def BlobFits (m : Memory) (r : Reader) : Prop :=
  ∀ len r₁, readerGetInt32 m r = .ok (some len, r₁) →
    r₁.ptr.toNat + (paddedSize (len.signExtend 64)).toNat < 2 ^ 64

section Ahead
variable {m : Memory} {base : Addr} {bs : List Byte} {r r' : Reader} {α β : Type}

/-- Whatever comes of the read, the cursor does not go back and stays in the message. -/
def Ahead (m : Memory) (base : Addr) (bs : List Byte) (x : Get α) (r : Reader) : Prop :=
  ∀ o r', x m r = .ok (o, r') → r.ptr.toNat ≤ r'.ptr.toNat ∧ Between base bs r'

lemma Ahead.andThen {x : Get α} {f : α → Get β} (hx : Ahead m base bs x r)
    (hf : ∀ a r', x m r = .ok (some a, r') → Between base bs r' → Ahead m base bs (f a) r') :
    Ahead m base bs (x >>= f) r := by
  intro o r' h
  rcases hxr : x m r with e | ⟨_ | a, r₁⟩
  · change Get.bind x f m r = _ at h
    simp [Get.bind, hxr] at h
  · rw [bind_of_none hxr] at h
    cases h
    exact hx _ _ hxr
  · rw [bind_of_some hxr] at h
    obtain ⟨hle, hbetween⟩ := hx _ _ hxr
    obtain ⟨hle', hbetween'⟩ := hf a r₁ hxr hbetween o r' h
    exact ⟨hle.trans hle', hbetween'⟩

variable (h : Between base bs r)
include h

lemma ahead_pure (a : α) : Ahead m base bs (pure a : Get α) r := by
  rintro o r' ⟨⟩
  exact ⟨le_rfl, h⟩

lemma ahead_fail : Ahead m base bs (fail : Get α) r := by
  rintro o r' ⟨⟩
  exact ⟨le_rfl, h⟩

lemma ahead_need (n : Addr) : Ahead m base bs (need n) r := by
  rintro o r' ⟨⟩
  exact ⟨le_rfl, h⟩

lemma ahead_cursor : Ahead m base bs cursor r := by
  rintro o r' ⟨⟩
  exact ⟨le_rfl, h⟩

lemma ahead_peek (f : Memory → Except Fault α) : Ahead m base bs (peek f) r := by
  intro o r' hpeek
  obtain ⟨a, -, hpeek⟩ := bind_eq_ok.mp hpeek
  cases hpeek
  exact ⟨le_rfl, h⟩

/-- A size that was checked is passed over, if its sum with the cursor does not wrap around. -/
lemma ahead_skip {n : Addr} (hneed : readerOverflow r n = false)
    (hn : r.ptr.toNat + n.toNat < 2 ^ 64) : Ahead m base bs (skip n) r := by
  rintro o r' ⟨⟩
  obtain ⟨hptr, hle⟩ := overflow_ok hneed hn
  exact ⟨by omega, h.advance hle⟩

omit h in
lemma field_fits {n : ℕ} (h : Between base bs r) (hn : n ≤ 16) :
    r.ptr.toNat + (BitVec.ofNat 64 n).toNat < 2 ^ 64 := by
  have hupper := h.upper
  have hstop := h.stop
  have hbelow := h.below
  rw [BitVec.toNat_ofNat]
  omega

lemma ahead_field {n : ℕ} (f : List Byte → α) (hn : n ≤ 16) :
    Ahead m base bs (readField n f) r := by
  intro o r' hread
  rw [readField_eq] at hread
  split_ifs at hread with hneed
  · cases hread
    exact ⟨le_rfl, h⟩
  · obtain ⟨xs, -, hread⟩ := bind_eq_ok.mp hread
    cases hread
    exact ahead_skip (m := m) h (Bool.eq_false_iff.mpr hneed) (field_fits h hn) (some ()) _ rfl

omit h in
/-- The NUL of a string is mapped, so the string ends below the roof. -/
lemma strlen_roofed (hm : Roofed m) {p : Addr} {n : ℕ} (hlen : strlen m p = .ok n) :
    p.toNat + n + 16 < 2 ^ 64 := by
  obtain ⟨chars, rfl, htext⟩ := strlen_some hlen
  have hbelow := htext.below
  have hnul := (holds_append.mp htext.holds).2.1
  have hroof := hm _ _ hnul
  rw [BitVec.toNat_add, BitVec.toNat_ofNat] at hroof
  omega

omit h in
lemma string_fits (hm : Roofed m) {p : Addr} {n : ℕ} (hlen : strlen m p = .ok n) :
    p.toNat + (paddedSize (BitVec.ofNat 64 n + 1)).toNat < 2 ^ 64 := by
  have hroof := strlen_roofed hm hlen
  rw [strlen_padded (by omega), padLen]
  omega

lemma ahead_string (hm : Roofed m) : Ahead m base bs readerGetString r := by
  refine (ahead_cursor h).andThen fun p r₁ h₁ hr₁ => ?_
  obtain ⟨rfl, rfl⟩ := cursor_ok_some.mp h₁
  refine (ahead_peek hr₁ _).andThen fun n r₂ h₂ hr₂ => ?_
  obtain ⟨hlen, rfl⟩ := peek_ok_some.mp h₂
  refine (ahead_need hr₂ _).andThen fun _ r₃ h₃ hr₃ => ?_
  obtain ⟨hneed, rfl⟩ := need_ok_some.mp h₃
  exact (ahead_skip hr₃ hneed (string_fits hm hlen)).andThen fun _ _ _ hr => ahead_pure hr _

lemma ahead_text (hm : Roofed m) (arg : Arg) (value : Addr → ArgValue) :
    Ahead m base bs (readText arg value) r :=
  (ahead_string h hm).andThen fun _ _ _ hr => (ahead_peek hr _).andThen fun _ _ _ hr' =>
    ahead_pure hr' _

lemma ahead_midi : Ahead m base bs readerGetMidi r := by
  refine (ahead_need h _).andThen fun _ r₁ h₁ hr₁ => ?_
  obtain ⟨hneed, rfl⟩ := need_ok_some.mp h₁
  refine (ahead_cursor hr₁).andThen fun p r₂ h₂ hr₂ => ?_
  obtain ⟨-, rfl⟩ := cursor_ok_some.mp h₂
  exact (ahead_skip hr₂ hneed (field_fits (n := 4) hr₂ (by omega))).andThen fun _ _ _ hr =>
    ahead_pure hr _

lemma ahead_blob (hfits : BlobFits m r) : Ahead m base bs readerGetBlob r := by
  refine (ahead_field (n := 4) h _ (by omega)).andThen fun len r₁ h₁ hr₁ => ?_
  have hsum := hfits len r₁ h₁
  refine (ahead_need hr₁ _).andThen fun _ r₂ h₂ hr₂ => ?_
  obtain ⟨hneed, rfl⟩ := need_ok_some.mp h₂
  refine (ahead_cursor hr₂).andThen fun p r₃ h₃ hr₃ => ?_
  obtain ⟨-, rfl⟩ := cursor_ok_some.mp h₃
  exact (ahead_skip hr₃ hneed hsum).andThen fun _ _ _ hr => ahead_pure hr _

/-- The read of an argument of any type goes on in the message. -/
theorem ahead_argRaw (hm : Roofed m) {arg : Arg} (hfits : HasType m arg .blob → BlobFits m r) :
    Ahead m base bs (readerArgRaw arg) r := by
  refine (ahead_peek h _).andThen fun c r₁ h₁ hr₁ => ?_
  obtain ⟨hload, rfl⟩ := peek_ok_some.mp h₁
  cases hc : OscType.ofChar c with
  | none => exact ahead_pure hr₁ _
  | some t =>
    cases t with
    | int32 | float | rgba =>
      exact (ahead_field (n := 4) hr₁ _ (by omega)).andThen fun _ _ _ hr => ahead_pure hr _
    | int64 | double | timetag =>
      exact (ahead_field (n := 8) hr₁ _ (by omega)).andThen fun _ _ _ hr => ahead_pure hr _
    | string => exact ahead_text hr₁ hm arg .s
    | symbol => exact ahead_text hr₁ hm arg .S
    | blob =>
      exact (ahead_blob hr₁ (hfits ⟨c, hload, hc⟩)).andThen fun _ _ _ hr => ahead_pure hr _
    | true | false | nil | impulse => exact ahead_pure hr₁ _
    | midi => exact (ahead_midi hr₁).andThen fun _ _ _ hr => ahead_pure hr _
    | char =>
      refine Ahead.andThen ?_ fun _ _ _ hr => ahead_pure hr _
      exact (ahead_field (n := 4) hr₁ _ (by omega)).andThen fun _ _ _ hr => ahead_pure hr _

end Ahead

section Bytes
variable {m : Memory} {base : Addr} {bs : List Byte} {r r' : Reader} {t : OscType} {arg arg' : Arg}

/-- The bytes that the cursor passed over. -/
def span (r r' : Reader) : Set Addr := {q | r.ptr.toNat ≤ q.toNat ∧ q.toNat < r'.ptr.toNat}

lemma block_span {p : Addr} {n : ℕ} (hlow : r.ptr.toNat ≤ p.toNat)
    (hhigh : p.toNat + n ≤ r'.ptr.toNat) : block p n ⊆ span r r' := by
  rintro q ⟨hle, hlt⟩
  exact ⟨by omega, by omega⟩

lemma field_passed {α : Type} {n : ℕ} {f : List Byte → α} {v : α} (h : Between base bs r)
    (hn : n ≤ 16) (hread : readField n f m r = .ok (some v, r')) :
    r'.ptr.toNat = r.ptr.toNat + n := by
  obtain ⟨hneed, rfl⟩ := readField_some hread
  rw [(overflow_ok hneed (field_fits h hn)).1, BitVec.toNat_ofNat, Nat.mod_eq_of_lt (by omega)]

lemma size_le (k : ℕ) : (BitVec.ofNat 32 k).toInt.toNat ≤ k := by
  rw [BitVec.toInt_eq_toNat_cond, BitVec.toNat_ofNat]
  split_ifs <;> omega

lemma size_eq {k : ℕ} (hk : k < 2 ^ 31) : (BitVec.ofNat 32 k).toInt.toNat = k := by
  rw [BitVec.toInt_eq_toNat_cond, BitVec.toNat_ofNat]
  split_ifs <;> omega

lemma text_payload {value : Addr → ArgValue} (hm : Roofed m)
    (hread : readText arg value m r = .ok (some arg', r')) :
    ∃ n, strlen m r.ptr = .ok n ∧ r.ptr.toNat + n + 1 ≤ r'.ptr.toNat ∧
      arg' = { arg with value := some (value r.ptr), size := BitVec.ofNat 32 (n + 1) } := by
  obtain ⟨p, r₁, h₁, hrest⟩ := bind_ok_some.mp hread
  obtain ⟨n, r₂, h₂, hlast⟩ := bind_ok_some.mp hrest
  obtain ⟨rfl, k, hlen, hneed, rfl⟩ := getString_some h₁
  obtain ⟨hlen', rfl⟩ := peek_ok_some.mp h₂
  obtain ⟨rfl, rfl⟩ := pure_ok_some.mp hlast
  cases hlen.symm.trans hlen'
  have hroof := strlen_roofed hm hlen
  have hpad := le_padLen (n + 1)
  refine ⟨n, hlen, ?_, rfl⟩
  rw [(overflow_ok hneed (string_fits hm hlen)).1, strlen_padded (by omega)]
  omega

/-- A length is not more than its padded size, and a negative one is the length of nothing. -/
lemma length_padded_le (len : BitVec 32) :
    len.toInt.toNat ≤ (paddedSize (len.signExtend 64)).toNat := by
  have hint := BitVec.toInt_signExtend_of_le (x := len) (show 32 ≤ 64 by omega)
  have hlt := BitVec.toInt_lt (x := len)
  rw [BitVec.toInt_eq_toNat_cond (x := len.signExtend 64)] at hint
  rw [paddedSize_wrapped]
  split_ifs at hint <;> omega

/-- In user space the padded size of a length does not wrap around from `-3` on. -/
lemma padded_fits {p : Addr} {len : BitVec 32} (hlow : 2 ^ 31 ≤ p.toNat)
    (hhigh : p.toNat + 2 ^ 31 + 3 < 2 ^ 64) :
    p.toNat + (paddedSize (len.signExtend 64)).toNat < 2 ^ 64 ↔ -3 ≤ len.toInt := by
  have hint := BitVec.toInt_signExtend_of_le (x := len) (show 32 ≤ 64 by omega)
  have hlt := BitVec.toInt_lt (x := len)
  have hle := BitVec.le_toInt (x := len)
  rw [BitVec.toInt_eq_toNat_cond (x := len.signExtend 64)] at hint
  rw [paddedSize_wrapped]
  split_ifs at hint <;> omega

/-- For a message in user space the lengths that fit are the ones from `-3` on. -/
theorem blobFits_iff (h : Between base bs r) (hlow : 2 ^ 31 ≤ base.toNat)
    (hhigh : base.toNat + bs.length + 2 ^ 31 + 3 < 2 ^ 64) :
    BlobFits m r ↔ ∀ len r₁, readerGetInt32 m r = .ok (some len, r₁) → -3 ≤ len.toInt := by
  refine forall_congr' fun len => forall_congr' fun r₁ => forall_congr' fun hlen => ?_
  have hbetween := (ahead_field (n := 4) h _ (by omega) _ _ hlen).2
  have hlower := hbetween.lower
  have hupper := hbetween.upper
  have hstop := hbetween.stop
  exact padded_fits (by omega) (by omega)

/-- The bytes of an argument are among those that the cursor passes over with it. -/
theorem argRaw_bytes (hm : Roofed m) (h : Between base bs r)
    (hread : readerArgRaw arg m r = .ok (some arg', r')) (ht : HasType m arg t)
    (hfits : t = .blob → BlobFits m r) : argBytes t r arg' ⊆ span r r' := by
  obtain ⟨c, r₁, h₁, hrest⟩ := bind_ok_some.mp hread
  obtain ⟨hload, rfl⟩ := peek_ok_some.mp h₁
  obtain ⟨c', hload', hc⟩ := ht
  cases hload.symm.trans hload'
  rw [hc] at hrest
  cases t with
  | true | false | nil | impulse => exact Set.empty_subset _
  | int32 | float | rgba =>
    obtain ⟨v, r₂, h₂, hlast⟩ := bind_ok_some.mp hrest
    obtain ⟨-, rfl⟩ := pure_ok_some.mp hlast
    exact block_span le_rfl (field_passed (n := 4) h (by omega) h₂).ge
  | int64 | double | timetag =>
    obtain ⟨v, r₂, h₂, hlast⟩ := bind_ok_some.mp hrest
    obtain ⟨-, rfl⟩ := pure_ok_some.mp hlast
    exact block_span le_rfl (field_passed (n := 8) h (by omega) h₂).ge
  | char =>
    obtain ⟨v, r₂, h₂, hlast⟩ := bind_ok_some.mp hrest
    obtain ⟨i, r₃, h₃, hlast'⟩ := bind_ok_some.mp h₂
    obtain ⟨-, rfl⟩ := pure_ok_some.mp hlast
    obtain ⟨-, rfl⟩ := pure_ok_some.mp hlast'
    exact block_span le_rfl (field_passed (n := 4) h (by omega) h₃).ge
  | midi =>
    obtain ⟨p, r₂, h₂, hlast⟩ := bind_ok_some.mp hrest
    obtain ⟨rfl, rfl⟩ := pure_ok_some.mp hlast
    obtain ⟨rfl, hneed, rfl⟩ := getMidi_some h₂
    have hptr := (overflow_ok hneed (field_fits (n := 4) h (by omega))).1
    exact block_span le_rfl hptr.ge
  | string | symbol =>
    obtain ⟨n, -, hle, rfl⟩ := text_payload hm hrest
    have hsize := size_le (n + 1)
    change block r₁.ptr (BitVec.ofNat 32 (n + 1)).toInt.toNat ⊆ _
    exact block_span le_rfl (by omega)
  | blob =>
    obtain ⟨v, r₂, h₂, hlast⟩ := bind_ok_some.mp hrest
    obtain ⟨rfl, rfl⟩ := pure_ok_some.mp hlast
    obtain ⟨r₃, hlen, hbody, hneed, rfl⟩ := getBlob_some h₂
    have hlow : r₃.ptr.toNat = r₁.ptr.toNat + 4 := field_passed (n := 4) h (by omega) hlen
    have hptr := (overflow_ok hneed (hfits rfl _ _ hlen)).1
    have hsize := length_padded_le v.1
    refine Set.union_subset (block_span le_rfl (by omega)) ?_
    change block v.2 v.1.toInt.toNat ⊆ _
    rw [hbody]
    exact block_span (by omega) (by omega)

/-- A length that wraps around passes the overflow check, and the cursor goes back. -/
theorem blob_wraps {r₁ : Reader} {len : BitVec 32} (h : Between base bs r)
    (ht : HasType m arg .blob) (hlen : readerGetInt32 m r = .ok (some len, r₁))
    (hwraps : 2 ^ 64 ≤ r₁.ptr.toNat + (paddedSize (len.signExtend 64)).toNat) :
    ∃ arg' r', readerArgRaw arg m r = .ok (some arg', r') ∧ arg'.type = arg.type ∧
      r'.ptr.toNat < r₁.ptr.toNat := by
  obtain ⟨c, hload, hc⟩ := ht
  have hupper := (ahead_field (n := 4) h _ (by omega) _ _ hlen).2.upper
  have hpadded := (paddedSize (len.signExtend 64)).isLt
  have hptr := r₁.ptr.isLt
  have hback : (r₁.advance (paddedSize (len.signExtend 64))).ptr.toNat < r₁.ptr.toNat := by
    rw [Reader.advance_ptr, BitVec.toNat_add]
    omega
  have hneed : readerOverflow r₁ (paddedSize (len.signExtend 64)) = false := by
    rw [readerOverflow, decide_eq_false_iff_not, BitVec.lt_def, ← Reader.advance_ptr]
    omega
  have hblob : readerGetBlob m r =
      .ok (some (len, r₁.ptr), r₁.advance (paddedSize (len.signExtend 64))) := by
    rw [readerGetBlob, bind_of_some hlen, bind_of_some (need_eq hneed), bind_of_some cursor_eq,
      bind_of_some skip_eq, pure_eq]
  refine ⟨{ arg with value := some (.b r₁.ptr), size := len }, _, ?_, rfl, hback⟩
  rw [readerArgRaw, bind_of_some (peek_eq hload), hc]
  exact bind_of_some hblob

end Bytes

section Agree
variable {m m' : Memory} {base : Addr} {bs : List Byte} {r r' : Reader} {p : Addr}
variable {t : OscType} {arg arg' : Arg}

/-- The two memories have the same bytes in `S`. -/
def Agree (m m' : Memory) (S : Set Addr) : Prop := ∀ q ∈ S, m' q = m q

lemma Agree.head {n : ℕ} (h : Agree m m' (block p (n + 1))) : m' p = m p :=
  h p ⟨le_rfl, by omega⟩

lemma Agree.tail {n : ℕ} (h : Agree m m' (block p (n + 1))) (hp : p.toNat + 1 < 2 ^ 64) :
    Agree m m' (block (p + 1) n) := by
  have hnext := succ_toNat hp
  exact fun q hq => h q (block_subset (by omega) (by omega) hq)

lemma load_agree (h : m' p = m p) : load m' p = load m p := by simp only [load, h]

lemma loads_agree {n : ℕ} (h : Agree m m' (block p n)) (hp : p.toNat + n < 2 ^ 64) :
    CarriesValue m m' (loads · p n) := by
  induction n generalizing p with
  | zero => exact .const _
  | succ n ih =>
    have hnext := succ_toNat (p := p) (by omega)
    have hload : CarriesValue m m' (load · p) := by
      intro b hb
      exact (load_agree h.head).trans hb
    exact hload.bind fun b => (ih (h.tail (by omega)) (by omega)).bind fun _ => .const _

lemma holds_agree {xs : List Byte} (h : Agree m m' (block p xs.length))
    (hp : p.toNat + xs.length ≤ 2 ^ 64) (hxs : Holds m p xs) : Holds m' p xs := by
  induction xs generalizing p with
  | nil => trivial
  | cons x xs ih =>
    refine ⟨h.head.trans hxs.1, ?_⟩
    cases xs with
    | nil => trivial
    | cons y ys =>
      simp only [List.length_cons] at hp h ih
      have hnext := succ_toNat (p := p) (by omega)
      exact ih (h.tail (by omega)) (by omega) hxs.2

lemma strlen_agree {n : ℕ} (hlen : strlen m p = .ok n) (h : Agree m m' (block p (n + 1))) :
    strlen m' p = .ok n := by
  obtain ⟨chars, rfl, htext⟩ := strlen_some hlen
  have hbelow := htext.below
  have hholds : Holds m' p (chars ++ [0]) := by
    refine holds_agree ?_ ?_ htext.holds
    · rwa [List.length_append]
    · rw [List.length_append, List.length_singleton]
      omega
  exact strlen_holds htext.noNul hholds hbelow

lemma field_agree {α : Type} {n : ℕ} (f : List Byte → α) (hbetween : Between base bs r)
    (hn : n ≤ 16) (h : Agree m m' (block r.ptr n)) :
    CarriesValue m m' (readField n f · r) := by
  have hptr := field_fits hbetween hn
  rw [BitVec.toNat_ofNat] at hptr
  simp only [readField_eq]
  split_ifs
  · exact .const _
  · exact (loads_agree h (by omega)).bind fun _ => .const _

lemma text_agree {value : Addr → ArgValue} {n : ℕ} (hlen : strlen m r.ptr = .ok n)
    (h : Agree m m' (block r.ptr (n + 1))) : CarriesValue m m' (readText arg value · r) := by
  have hcarry : CarriesValue m m' (strlen · r.ptr) := by
    intro k hk
    cases hlen.symm.trans hk
    exact strlen_agree hlen h
  have hstring : CarriesValue m m' (readerGetString · r) := by
    refine (carries_cursor r).andThen fun p r₁ h₁ => ?_
    obtain ⟨rfl, rfl⟩ := cursor_ok_some.mp h₁
    exact (Carries.peek hcarry _).andThen fun k r₂ _ =>
      ((carries_need _).bind fun _ => (carries_skip _).bind fun _ => .pure _) r₂
  refine hstring.andThen fun p r₁ h₁ => ?_
  obtain ⟨rfl, -, -⟩ := string_some h₁
  exact (Carries.peek hcarry _).andThen fun _ r₂ _ => Carries.pure _ r₂

/-- An argument is read from the bytes in `argBytes`: in every memory that has the same ones, and
the same type character, it is the same argument. -/
theorem argRaw_agree (hm : Roofed m) (h : Between base bs r) (hshort : bs.length < 2 ^ 31)
    (hread : readerArgRaw arg m r = .ok (some arg', r')) (ht : HasType m arg t)
    (htype : m' arg.type = m arg.type) (hagree : Agree m m' (argBytes t r arg')) :
    readerArgRaw arg m' r = .ok (some arg', r') := by
  obtain ⟨c, r₁, h₁, hrest⟩ := bind_ok_some.mp hread
  obtain ⟨hload, hr₁⟩ := peek_ok_some.mp h₁
  rw [hr₁] at hrest
  obtain ⟨c', hload', hc⟩ := ht
  cases hload.symm.trans hload'
  have hfirst : peek (load · arg.type) m' r = .ok (some c, r) := by
    apply peek_eq
    rwa [load_agree htype]
  rw [readerArgRaw, bind_of_some hfirst, hc]
  rw [hc] at hrest
  cases t with
  | true | false | nil | impulse => exact hrest
  | int32 | float | rgba =>
    exact ((field_agree (n := 4) _ h (by omega) hagree).andThen fun _ _ _ =>
      Carries.pure _ _) _ hrest
  | int64 | double | timetag =>
    exact ((field_agree (n := 8) _ h (by omega) hagree).andThen fun _ _ _ =>
      Carries.pure _ _) _ hrest
  | char =>
    have hint := field_agree (n := 4) (fun bs => BitVec.ofNat 32 (valueBE bs)) h (by omega) hagree
    have hchar : CarriesValue m m' (readerGetChar · r) := hint.andThen fun _ _ _ => Carries.pure _ _
    exact (hchar.andThen fun _ _ _ => Carries.pure _ _) _ hrest
  | midi => exact ((carries_midi r).andThen fun _ _ _ => Carries.pure _ _) _ hrest
  | string | symbol =>
    have hnext := (ahead_text h hm arg _ _ _ hrest).2
    obtain ⟨n, hlen, hle, rfl⟩ := text_payload hm hrest
    have hlower := h.lower
    have hupper := hnext.upper
    have hstop := hnext.stop
    change Agree m m' (block r.ptr (BitVec.ofNat 32 (n + 1)).toInt.toNat) at hagree
    rw [size_eq (by omega)] at hagree
    exact text_agree hlen hagree _ hrest
  | blob =>
    have hsize : Agree m m' (block r.ptr 4) := fun q hq => hagree q (Or.inl hq)
    have hint := field_agree (fun bs => BitVec.ofNat 32 (valueBE bs)) h (by omega) hsize
    have hblob : CarriesValue m m' (readerGetBlob · r) := hint.andThen fun len r₂ _ =>
      ((carries_need _).bind fun _ => carries_cursor.bind fun _ => (carries_skip _).bind fun _ =>
        .pure _) r₂
    exact (hblob.andThen fun _ _ _ => Carries.pure _ _) _ hrest

end Agree

end Osc2FtdiDmx.ArgumentBytes
