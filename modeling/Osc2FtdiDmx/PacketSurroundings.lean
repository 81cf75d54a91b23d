import Osc2FtdiDmx.PacketRanges

/-! A packet with other bytes around it. What the reader makes of the packet's bytes alone
it makes of them in every memory that holds them. -/
namespace Osc2FtdiDmx.PacketSurroundings
open BytesEndian OscMemory OscReader ReaderSpecs Get PacketRanges

/-- The bytes `bs` at `base`, and `out` everywhere else. -/
def around (base : Addr) (bs : List Byte) (out : Addr → Byte) : Memory := fun p =>
  some (bs.getD (p - base).toNat (out p))

/-- What is mapped in `m` is the same in `m'`. -/
def Extends (m m' : Memory) : Prop := ∀ p b, m p = some b → m' p = some b

lemma extends_around (base : Addr) (bs : List Byte) (out : Addr → Byte) :
    Extends (image base bs) (around base bs out) := by
  intro p b h
  rw [image] at h
  rw [around, List.getD_eq_getElem?_getD, h, Option.getD_some]

section Carries
variable {α β : Type} {m m' : Memory}

/-- A value that is read from `m` is read from `m'` as well. -/
def CarriesValue (m m' : Memory) (f : Memory → Except Fault α) : Prop :=
  ∀ a, f m = .ok a → f m' = .ok a

lemma CarriesValue.bind {f : Memory → Except Fault α} {g : α → Memory → Except Fault β}
    (hf : CarriesValue m m' f) (hg : ∀ a, CarriesValue m m' (g a)) :
    CarriesValue m m' fun m => f m >>= fun a => g a m := by
  intro b h
  obtain ⟨a, ha, hb⟩ := bind_eq_ok.mp h
  exact bind_eq_ok.mpr ⟨a, hf a ha, hg a b hb⟩

lemma CarriesValue.const (x : Except Fault α) : CarriesValue m m' fun _ => x := fun _ h => h

variable (hm : Extends m m')
include hm

lemma carries_load (p : Addr) : CarriesValue m m' (load · p) := by
  intro b h
  cases hb : m p with
  | none => simp [load, hb] at h
  | some c => simpa [load, hb, hm p c hb] using h

lemma carries_loads (p : Addr) (n : ℕ) : CarriesValue m m' (loads · p n) := by
  induction n generalizing p with
  | zero => exact .const _
  | succ n ih => exact (carries_load hm p).bind fun b => (ih (p + 1)).bind fun bs => .const _

lemma carries_strlenFrom (n : ℕ) (p : Addr) : CarriesValue m m' (strlenFrom · n p) := by
  induction n generalizing p with
  | zero =>
    intro a h
    cases h
  | succ n ih =>
    refine (carries_load hm p).bind fun b => ?_
    split_ifs
    · exact .const _
    · exact (ih (p + 1)).bind fun k => .const _

lemma carries_strlen (p : Addr) : CarriesValue m m' (strlen · p) := carries_strlenFrom hm _ p

lemma carries_strncmpEq (p : Addr) (cs : List Byte) : CarriesValue m m' (strncmpEq · p cs) := by
  induction cs generalizing p with
  | nil => exact .const _
  | cons c cs ih =>
    refine (carries_load hm p).bind fun b => ?_
    split_ifs
    · exact .const _
    · exact .const _
    · exact ih (p + 1)

omit hm

/-- The same for a reading function, from every cursor. -/
def Carries (m m' : Memory) (x : Get α) : Prop := ∀ r, CarriesValue m m' (x · r)

/-- The second part has to carry only from the cursor that the first one leaves. -/
lemma CarriesValue.andThen {x : Get α} {f : α → Get β} {r : Reader} (hx : CarriesValue m m' (x · r))
    (hf : ∀ a r', x m r = .ok (some a, r') → CarriesValue m m' (f a · r')) :
    CarriesValue m m' ((x >>= f) · r) := by
  intro res h
  change (x >>= f) m r = _ at h
  change (x >>= f) m' r = _
  rcases hxr : x m r with e | ⟨_ | a, r'⟩
  · change Get.bind x f m r = _ at h
    simp [Get.bind, hxr] at h
  · rw [bind_of_none hxr] at h
    rw [bind_of_none (hx _ hxr), h]
  · rw [bind_of_some hxr] at h
    rw [bind_of_some (hx _ hxr)]
    exact hf a r' hxr res h

lemma Carries.bind {x : Get α} {f : α → Get β} (hx : Carries m m' x)
    (hf : ∀ a, Carries m m' (f a)) : Carries m m' (x >>= f) :=
  fun r => (hx r).andThen fun a r' _ => hf a r'

lemma Carries.pure (a : α) : Carries m m' (pure a : Get α) := fun _ _ h => h

lemma Carries.fail : Carries m m' (fail : Get α) := fun _ _ h => h

lemma carries_need (n : Addr) : Carries m m' (need n) := fun _ _ h => h

lemma carries_cursor : Carries m m' cursor := fun _ _ h => h

lemma carries_skip (n : Addr) : Carries m m' (skip n) := fun _ _ h => h

lemma Carries.peek {f : Memory → Except Fault α} (hf : CarriesValue m m' f) :
    Carries m m' (peek f) := fun _ => hf.bind fun _ => .const _

include hm

lemma carries_readField (n : ℕ) (f : List Byte → α) : Carries m m' (readField n f) := by
  intro r
  simp only [readField_eq]
  split_ifs
  · exact .const _
  · exact (carries_loads hm r.ptr n).bind fun _ => .const _

lemma carries_int32 : Carries m m' readerGetInt32 := carries_readField hm 4 _

lemma carries_int64 : Carries m m' readerGetInt64 := carries_readField hm 8 _

lemma carries_string : Carries m m' readerGetString :=
  carries_cursor.bind fun p => (Carries.peek (carries_strlen hm p)).bind fun _ =>
    (carries_need _).bind fun _ => (carries_skip _).bind fun _ => .pure _

omit hm in
lemma carries_midi : Carries m m' readerGetMidi :=
  (carries_need _).bind fun _ => carries_cursor.bind fun _ => (carries_skip _).bind fun _ => .pure _

lemma carries_blob : Carries m m' readerGetBlob :=
  (carries_int32 hm).bind fun _ => (carries_need _).bind fun _ => carries_cursor.bind fun _ =>
    (carries_skip _).bind fun _ => .pure _

lemma carries_rgba : Carries m m' readerGetRgba := carries_readField hm 4 id

lemma carries_char : Carries m m' readerGetChar :=
  (carries_int32 hm).bind fun _ => .pure _

/-- The shape of the reads of string arguments. -/
def readText (arg : Arg) (value : Addr → ArgValue) : Get Arg := do
  let s ← readerGetString
  let n ← peek (strlen · s)
  pure { arg with value := some (value s), size := BitVec.ofNat 32 (n + 1) }

lemma carries_text (arg : Arg) (value : Addr → ArgValue) : Carries m m' (readText arg value) :=
  (carries_string hm).bind fun p => (Carries.peek (carries_strlen hm p)).bind fun _ => .pure _

lemma carries_argRaw (arg : Arg) : Carries m m' (readerArgRaw arg) := by
  refine (Carries.peek (carries_load hm arg.type)).bind fun c => ?_
  cases OscType.ofChar c with
  | none => exact .pure _
  | some t =>
    cases t with
    | int32 | float => exact (carries_int32 hm).bind fun _ => .pure _
    | string => exact carries_text hm arg .s
    | symbol => exact carries_text hm arg .S
    | blob => exact (carries_blob hm).bind fun _ => .pure _
    | true | false | nil | impulse => exact .pure _
    | int64 | double | timetag => exact (carries_int64 hm).bind fun _ => .pure _
    | midi => exact carries_midi.bind fun _ => .pure _
    | char => exact (carries_char hm).bind fun _ => .pure _
    | rgba => exact (carries_rgba hm).bind fun _ => .pure _

lemma carries_argBegin (arg : Arg) (len : Addr) : Carries m m' (readerArgBegin arg len) := by
  refine (carries_need _).bind fun _ => carries_cursor.bind fun p =>
    (carries_string hm).bind fun path => (carries_string hm).bind fun type =>
      (Carries.peek (carries_load hm type)).bind fun c => ?_
  split_ifs
  · exact .fail
  · exact carries_argRaw hm _

lemma carries_messageBegin (len : Addr) : Carries m m' (readerMessageBegin len) :=
  carries_argBegin hm _ len

lemma carries_argNext (arg : Arg) : Carries m m' (readerArgNext arg) := carries_argRaw hm _

lemma carries_argIsEnd (r : Reader) (arg : Arg) : CarriesValue m m' (readerArgIsEnd · r arg) :=
  (carries_load hm arg.type).bind fun _ => .const _

lemma carries_itemRaw (itm : Item) : Carries m m' (readerItemRaw itm) :=
  (carries_int32 hm).bind fun _ => (carries_need _).bind fun _ => carries_cursor.bind fun _ =>
    .pure _

lemma carries_itemNext (itm : Item) : Carries m m' (readerItemNext itm) :=
  (carries_skip _).bind fun _ => carries_itemRaw hm itm

lemma carries_bundleBegin (len : Addr) : Carries m m' (readerBundleBegin len) := by
  refine (carries_need _).bind fun _ => carries_cursor.bind fun p => (carries_need _).bind fun _ =>
    (Carries.peek (carries_strncmpEq hm p bundleTag)).bind fun b => ?_
  split_ifs
  · exact (carries_skip _).bind fun _ => (carries_int64 hm).bind fun t => carries_itemRaw hm _
  · exact .fail

end Carries

section Moves
variable {m : Memory} {r r' r'' : Reader}

/-- The cursor after a read: where it was, or not behind the end. -/
def Moved (r r' : Reader) : Prop :=
  r'.endPtr = r.endPtr ∧ (r' = r ∨ r'.ptr.toNat ≤ r'.endPtr.toNat)

lemma Moved.refl (r : Reader) : Moved r r := ⟨rfl, Or.inl rfl⟩

lemma Moved.trans (h : Moved r r') (h' : Moved r' r'') : Moved r r'' := by
  refine ⟨h'.1.trans h.1, ?_⟩
  rcases h'.2 with rfl | hle
  · exact h.2
  · exact Or.inr hle

lemma moved_advance {n : Addr} (h : readerOverflow r n = false) : Moved r (r.advance n) := by
  rw [readerOverflow, decide_eq_false_iff_not, BitVec.lt_def, not_lt] at h
  exact ⟨rfl, Or.inr h⟩

lemma field_moved {α : Type} {n : ℕ} {f : List Byte → α} {v : α}
    (h : readField n f m r = .ok (some v, r')) : Moved r r' := by
  obtain ⟨hneed, rfl⟩ := readField_some h
  exact moved_advance hneed

lemma getString_some {p : Addr} (h : readerGetString m r = .ok (some p, r')) :
    p = r.ptr ∧ ∃ n, strlen m r.ptr = .ok n ∧
      readerOverflow r (paddedSize (BitVec.ofNat 64 n + 1)) = false ∧
      r' = r.advance (paddedSize (BitVec.ofNat 64 n + 1)) := by
  obtain ⟨_, r₁, h₁, h⟩ := bind_ok_some.mp h
  obtain ⟨n, r₂, h₂, h⟩ := bind_ok_some.mp h
  obtain ⟨_, r₃, h₃, h⟩ := bind_ok_some.mp h
  obtain ⟨_, r₄, h₄, h⟩ := bind_ok_some.mp h
  obtain ⟨rfl, rfl⟩ := cursor_ok_some.mp h₁
  obtain ⟨hlen, rfl⟩ := peek_ok_some.mp h₂
  obtain ⟨hneed, rfl⟩ := need_ok_some.mp h₃
  obtain rfl := skip_ok_some.mp h₄
  obtain ⟨rfl, rfl⟩ := pure_ok_some.mp h
  exact ⟨rfl, n, hlen, hneed, rfl⟩

/-- A string that was read ends in a NUL. -/
lemma string_some {p : Addr} (h : readerGetString m r = .ok (some p, r')) :
    p = r.ptr ∧ (∃ n, strlen m r.ptr = .ok n) ∧ Moved r r' := by
  obtain ⟨rfl, n, hlen, hneed, rfl⟩ := getString_some h
  exact ⟨rfl, ⟨n, hlen⟩, moved_advance hneed⟩

lemma getMidi_some {p : Addr} (h : readerGetMidi m r = .ok (some p, r')) :
    p = r.ptr ∧ readerOverflow r 4 = false ∧ r' = r.advance 4 := by
  obtain ⟨_, r₁, h₁, h⟩ := bind_ok_some.mp h
  obtain ⟨_, r₂, h₂, h⟩ := bind_ok_some.mp h
  obtain ⟨_, r₃, h₃, h⟩ := bind_ok_some.mp h
  obtain ⟨hneed, rfl⟩ := need_ok_some.mp h₁
  obtain ⟨rfl, rfl⟩ := cursor_ok_some.mp h₂
  obtain rfl := skip_ok_some.mp h₃
  obtain ⟨rfl, rfl⟩ := pure_ok_some.mp h
  exact ⟨rfl, hneed, rfl⟩

lemma midi_moved {p : Addr} (h : readerGetMidi m r = .ok (some p, r')) : Moved r r' := by
  obtain ⟨-, hneed, rfl⟩ := getMidi_some h
  exact moved_advance hneed

/-- The body of a blob stands behind its length. -/
lemma getBlob_some {v : BitVec 32 × Addr} (h : readerGetBlob m r = .ok (some v, r')) :
    ∃ r₁, readerGetInt32 m r = .ok (some v.1, r₁) ∧ v.2 = r₁.ptr ∧
      readerOverflow r₁ (paddedSize (v.1.signExtend 64)) = false ∧
      r' = r₁.advance (paddedSize (v.1.signExtend 64)) := by
  obtain ⟨len, r₁, h₁, h⟩ := bind_ok_some.mp h
  obtain ⟨_, r₂, h₂, h⟩ := bind_ok_some.mp h
  obtain ⟨_, r₃, h₃, h⟩ := bind_ok_some.mp h
  obtain ⟨_, r₄, h₄, h⟩ := bind_ok_some.mp h
  obtain ⟨hneed, rfl⟩ := need_ok_some.mp h₂
  obtain ⟨rfl, rfl⟩ := cursor_ok_some.mp h₃
  obtain rfl := skip_ok_some.mp h₄
  obtain ⟨rfl, rfl⟩ := pure_ok_some.mp h
  exact ⟨_, h₁, rfl, hneed, rfl⟩

lemma blob_moved {v : BitVec 32 × Addr} (h : readerGetBlob m r = .ok (some v, r')) :
    Moved r r' := by
  obtain ⟨r₁, hlen, -, hneed, rfl⟩ := getBlob_some h
  exact (field_moved hlen).trans (moved_advance hneed)

/-- What the read of an argument leaves alone. -/
structure SameArg (arg arg' : Arg) : Prop where
  type : arg'.type = arg.type
  path : arg'.path = arg.path
  endPtr : arg'.endPtr = arg.endPtr

lemma text_some {arg arg' : Arg} {value : Addr → ArgValue}
    (h : readText arg value m r = .ok (some arg', r')) : SameArg arg arg' ∧ Moved r r' := by
  obtain ⟨p, r₁, h₁, hrest⟩ := bind_ok_some.mp h
  obtain ⟨n, r₂, h₂, hlast⟩ := bind_ok_some.mp hrest
  obtain ⟨-, rfl⟩ := peek_ok_some.mp h₂
  obtain ⟨rfl, rfl⟩ := pure_ok_some.mp hlast
  exact ⟨⟨rfl, rfl, rfl⟩, (string_some h₁).2.2⟩

lemma read_some {α : Type} {x : Get α} {f : α → Arg} {arg arg' : Arg}
    (hx : ∀ v r', x m r = .ok (some v, r') → Moved r r') (hf : ∀ v, SameArg arg (f v))
    (h : (x >>= fun v => pure (f v)) m r = .ok (some arg', r')) :
    SameArg arg arg' ∧ Moved r r' := by
  obtain ⟨v, r₁, h₁, h⟩ := bind_ok_some.mp h
  obtain ⟨rfl, rfl⟩ := pure_ok_some.mp h
  exact ⟨hf v, hx v _ h₁⟩

lemma argRaw_some {arg arg' : Arg} (h : readerArgRaw arg m r = .ok (some arg', r')) :
    SameArg arg arg' ∧ Moved r r' := by
  obtain ⟨c, r₁, h₁, hread⟩ := bind_ok_some.mp h
  obtain ⟨-, rfl⟩ := peek_ok_some.mp h₁
  have hkept : ∀ value size, SameArg arg { arg with value, size } := fun _ _ => ⟨rfl, rfl, rfl⟩
  cases hc : OscType.ofChar c with
  | none =>
    rw [hc] at hread
    obtain ⟨rfl, rfl⟩ := pure_ok_some.mp hread
    exact ⟨⟨rfl, rfl, rfl⟩, .refl _⟩
  | some t =>
    rw [hc] at hread
    cases t with
    | int32 | float | int64 | double | timetag | rgba =>
      exact read_some (fun _ _ => field_moved) (fun _ => hkept _ _) hread
    | string | symbol => exact text_some hread
    | blob => exact read_some (fun _ _ => blob_moved) (fun _ => hkept _ _) hread
    | true | false | nil | impulse =>
      obtain ⟨rfl, rfl⟩ := pure_ok_some.mp hread
      exact ⟨⟨rfl, rfl, rfl⟩, .refl _⟩
    | midi => exact read_some (fun _ _ => midi_moved) (fun _ => hkept _ _) hread
    | char =>
      refine read_some (fun v r' hv => ?_) (fun _ => hkept _ _) hread
      obtain ⟨i, r₁, h₁, hv⟩ := bind_ok_some.mp hv
      obtain ⟨-, rfl⟩ := pure_ok_some.mp hv
      exact field_moved h₁

end Moves

section Image
variable {base : Addr} {bs : List Byte} {p : Addr} {r : Reader}

lemma image_load (hlow : base.toNat ≤ p.toNat) (hhigh : p.toNat < base.toNat + bs.length) :
    ∃ b, load (image base bs) p = .ok b := by
  have hlt : (p - base).toNat < bs.length := by
    rw [BitVec.toNat_sub_of_le (BitVec.le_def.mpr hlow)]
    omega
  exact ⟨bs[(p - base).toNat], by rw [load, image, List.getElem?_eq_getElem hlt]⟩

lemma image_loads {n : ℕ} (hlow : base.toNat ≤ p.toNat)
    (hhigh : p.toNat + n ≤ base.toNat + bs.length) (htop : base.toNat + bs.length < 2 ^ 64) :
    ∃ xs, loads (image base bs) p n = .ok xs := by
  induction n generalizing p with
  | zero => exact ⟨[], rfl⟩
  | succ n ih =>
    have hnext : (p + 1).toNat = p.toNat + 1 := succ_toNat (by omega)
    obtain ⟨b, hb⟩ : ∃ b, load (image base bs) p = .ok b := image_load hlow (by omega)
    obtain ⟨xs, hxs⟩ := ih (p := p + 1) (by omega) (by omega)
    exact ⟨b :: xs, by simp only [loads, hb, hxs, ok_bind, pure_eq_ok]⟩

/-- The cursor and its end are in the packet. -/
structure Between (base : Addr) (bs : List Byte) (r : Reader) : Prop where
  lower : base.toNat ≤ r.ptr.toNat
  upper : r.ptr.toNat ≤ r.endPtr.toNat
  stop : r.endPtr.toNat ≤ base.toNat + bs.length
  below : base.toNat + bs.length + 16 < 2 ^ 64

lemma Between.advance {n : Addr} (h : Between base bs r)
    (hn : r.ptr.toNat + n.toNat ≤ r.endPtr.toNat) : Between base bs (r.advance n) := by
  have hlower := h.lower
  have hstop := h.stop
  have hbelow := h.below
  have hptr : (r.advance n).ptr.toNat = r.ptr.toNat + n.toNat := by
    rw [Reader.advance_ptr, BitVec.toNat_add, Nat.mod_eq_of_lt (by omega)]
  exact ⟨by omega, by rwa [hptr], hstop, hbelow⟩

lemma image_field {α : Type} {n : ℕ} (f : List Byte → α) (hn : n ≤ 16) (h : Between base bs r) :
    ∃ res, readField n f (image base bs) r = .ok res := by
  have hlower := h.lower
  have hupper := h.upper
  have hstop := h.stop
  have hbelow := h.below
  have hsize : (BitVec.ofNat 64 n).toNat = n := by
    rw [BitVec.toNat_ofNat, Nat.mod_eq_of_lt (by omega)]
  rw [readField_eq]
  cases hneed : readerOverflow r (BitVec.ofNat 64 n) with
  | true => exact ⟨_, rfl⟩
  | false =>
    have hle := (overflow_ok hneed (by omega)).2
    obtain ⟨xs, hxs⟩ : ∃ xs, loads (image base bs) r.ptr n = .ok xs :=
      image_loads hlower (by omega) (by omega)
    rw [hxs]
    exact ⟨_, rfl⟩

lemma image_itemRaw (itm : Item) (h : Between base bs r) :
    ∃ res, readerItemRaw itm (image base bs) r = .ok res := by
  have hint : ∃ res, readerGetInt32 (image base bs) r = .ok res :=
    image_field (n := 4) _ (by omega) h
  obtain ⟨⟨_ | size, r₁⟩, hint⟩ := hint
  · exact ⟨_, bind_of_none hint⟩
  · rw [readerItemRaw, bind_of_some hint]
    cases hneed : readerOverflow r₁ (size.signExtend 64) with
    | true => exact ⟨_, bind_of_none (need_overflow hneed)⟩
    | false => exact ⟨_, by rw [bind_of_some (need_eq hneed), bind_of_some cursor_eq, pure_eq]⟩

/-- Where every byte is mapped, `strncmp` with a literal returns. -/
lemma around_strncmpEq (base : Addr) (bs : List Byte) (out : Addr → Byte) (p : Addr)
    (cs : List Byte) : ∃ b, strncmpEq (around base bs out) p cs = .ok b := by
  induction cs generalizing p with
  | nil => exact ⟨true, rfl⟩
  | cons c cs ih =>
    have hload : load (around base bs out) p = .ok (bs.getD (p - base).toNat (out p)) := rfl
    rw [strncmpEq, hload, ok_bind]
    split_ifs
    · exact ⟨false, rfl⟩
    · exact ⟨true, rfl⟩
    · exact ih (p + 1)

lemma image_strncmpEq {cs : List Byte} (hlow : base.toNat ≤ p.toNat)
    (hhigh : p.toNat + cs.length ≤ base.toNat + bs.length)
    (htop : base.toNat + bs.length < 2 ^ 64) : ∃ b, strncmpEq (image base bs) p cs = .ok b := by
  induction cs generalizing p with
  | nil => exact ⟨true, rfl⟩
  | cons c cs ih =>
    rw [List.length_cons] at hhigh
    have hnext : (p + 1).toNat = p.toNat + 1 := succ_toNat (by omega)
    obtain ⟨b, hb⟩ : ∃ b, load (image base bs) p = .ok b := image_load hlow (by omega)
    rw [strncmpEq, hb, ok_bind]
    split_ifs
    · exact ⟨false, rfl⟩
    · exact ⟨true, rfl⟩
    · exact ih (by omega) (by omega)

end Image

end Osc2FtdiDmx.PacketSurroundings
