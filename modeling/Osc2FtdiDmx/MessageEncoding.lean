import Osc2FtdiDmx.ReaderSpecs

/-! Well-formed messages, their encoding, and what the argument reader stores in
front of each encoded argument. -/
namespace Osc2FtdiDmx.MessageEncoding
open BytesEndian OscMemory OscReader ReaderSpecs Get

/-- A C string without its terminator. -/
structure CString where
  chars : List Byte
  noNul : (0 : Byte) ∉ chars

/-- A byte string whose length is a nonnegative `int32_t`. -/
structure Blob where
  bytes : List Byte
  fits : bytes.length < 2 ^ 31

def padLen (n : ℕ) : ℕ := (n + 3) / 4 * 4

/-- Zero bytes up to the next multiple of four. -/
def padded (bs : List Byte) : List Byte := bs ++ List.replicate (padLen bs.length - bs.length) 0

def CString.encode (s : CString) : List Byte := padded (s.chars ++ [0])

inductive Argument
  | int32 (v : BitVec 32)
  | float (bits : BitVec 32)
  | string (s : CString)
  | blob (b : Blob)
  | true | false | nil | impulse
  | int64 (v : BitVec 64)
  | double (bits : BitVec 64)
  | timetag (v : BitVec 64)
  | symbol (s : CString)
  | char (v : BitVec 32)
  | midi (bytes : BitVec 32)
  | rgba (bytes : BitVec 32)

def Argument.type : Argument → OscType
  | .int32 _ => .int32 | .float _ => .float | .string _ => .string | .blob _ => .blob
  | .true => .true | .false => .false | .nil => .nil | .impulse => .impulse
  | .int64 _ => .int64 | .double _ => .double | .timetag _ => .timetag
  | .symbol _ => .symbol | .char _ => .char | .midi _ => .midi | .rgba _ => .rgba

def Argument.encode : Argument → List Byte
  | .int32 v | .float v | .char v | .midi v | .rgba v => bytesBE 4 v.toNat
  | .int64 v | .double v | .timetag v => bytesBE 8 v.toNat
  | .string s | .symbol s => s.encode
  | .blob b => bytesBE 4 b.bytes.length ++ padded b.bytes
  | .true | .false | .nil | .impulse => []

/-- `path` is what follows the leading slash. -/
structure Message where
  path : CString
  args : List Argument

def typeChars (args : List Argument) : List Byte := args.map (·.type.toChar)

def encodeArgs (args : List Argument) : List Byte := args.flatMap Argument.encode

lemma slash_noNul (s : CString) : (0 : Byte) ∉ slash :: s.chars := by
  simpa [slash] using s.noNul

lemma typeChars_noNul (args : List Argument) : (0 : Byte) ∉ comma :: typeChars args := by
  rintro (_ | ⟨_, h⟩)
  obtain ⟨a, -, ha⟩ := List.mem_map.mp h
  exact a.type.toChar_ne_zero ha

def Message.pathString (msg : Message) : CString := ⟨slash :: msg.path.chars, slash_noNul msg.path⟩

def Message.typeString (msg : Message) : CString :=
  ⟨comma :: typeChars msg.args, typeChars_noNul msg.args⟩

def Message.encode (msg : Message) : List Byte :=
  msg.pathString.encode ++ (msg.typeString.encode ++ encodeArgs msg.args)

@[simp] lemma length_padded (bs : List Byte) : (padded bs).length = padLen bs.length := by
  simp only [padded, padLen, List.length_append, List.length_replicate]
  omega

@[simp] lemma CString.length_encode (s : CString) :
    s.encode.length = padLen (s.chars.length + 1) := by
  simp [CString.encode]

lemma le_padLen (n : ℕ) : n ≤ padLen n := by
  rw [padLen]
  omega

/-- The sum with three wraps around before it is rounded down. -/
lemma paddedSize_wrapped (n : Addr) : (paddedSize n).toNat = (n.toNat + 3) % 2 ^ 64 / 4 * 4 := by
  have hmask : (~~~3#64).toNat = (2 ^ (64 - 2) - 1) <<< 2 := rfl
  rw [paddedSize, BitVec.toNat_and, hmask, and_high_mask (by omega) (BitVec.isLt _),
    BitVec.toNat_add]
  rfl

lemma paddedSize_toNat {n : Addr} (h : n.toNat + 3 < 2 ^ 64) :
    (paddedSize n).toNat = padLen n.toNat := by
  rw [paddedSize_wrapped, Nat.mod_eq_of_lt h, padLen]

/-- The padded size of a string of `n` bytes and its NUL. -/
lemma strlen_padded {n : ℕ} (hn : n + 4 < 2 ^ 64) :
    (paddedSize (BitVec.ofNat 64 n + 1)).toNat = padLen (n + 1) := by
  have hsize : (BitVec.ofNat 64 n + 1).toNat = n + 1 := by
    rw [BitVec.toNat_add, BitVec.toNat_ofNat]
    change (n % 2 ^ 64 + 1) % 2 ^ 64 = _
    omega
  rw [paddedSize_toNat (by omega), hsize]

variable {m : Memory} {r : Reader} {ys : List Byte}

lemma CString.holds (s : CString) {p : Addr} (h : Holds m p (s.encode ++ ys)) :
    Holds m p (s.chars ++ [0]) := by
  rw [CString.encode, padded, List.append_assoc] at h
  exact (holds_append.mp h).1

lemma string_below (s : CString) (h : Over m r (s.encode ++ ys)) :
    r.ptr.toNat + (s.chars.length + 1) + 16 ≤ 2 ^ 64 := by
  have hstop := h.stop
  have hbelow := h.below
  have hlen := le_padLen (s.chars.length + 1)
  rw [List.length_append, CString.length_encode] at hstop
  omega

lemma strlen_over (s : CString) (h : Over m r (s.encode ++ ys)) :
    strlen m r.ptr = .ok s.chars.length := by
  have hbelow := string_below s h
  exact strlen_holds s.noNul (s.holds h.holds) (by omega)

lemma paddedSize_over (s : CString) (h : Over m r (s.encode ++ ys)) :
    paddedSize (BitVec.ofNat 64 s.chars.length + 1) = BitVec.ofNat 64 s.encode.length := by
  have hbelow := string_below s h
  apply BitVec.eq_of_toNat_eq
  rw [strlen_padded (by omega), ← CString.length_encode, h.toNat_ofNat (by simp)]

lemma getString_over (s : CString) (h : Over m r (s.encode ++ ys)) :
    readerGetString m r = .ok (some r.ptr, r.advance (BitVec.ofNat 64 s.encode.length)) := by
  rw [readerGetString, bind_of_some cursor_eq, bind_of_some (peek_eq (strlen_over s h)),
    paddedSize_over s h, bind_of_some (need_eq h.need_length), bind_of_some skip_eq, pure_eq]

lemma getMidi_over {v : BitVec 32} (h : Over m r (bytesBE 4 v.toNat ++ ys)) :
    readerGetMidi m r = .ok (some r.ptr, r.advance 4) := by
  have hneed : readerOverflow r 4 = false := h.need (by simp)
  rw [readerGetMidi, bind_of_some (need_eq hneed), bind_of_some cursor_eq, bind_of_some skip_eq,
    pure_eq]

lemma getRgba_over {v : BitVec 32} (h : Over m r (bytesBE 4 v.toNat ++ ys)) :
    readerGetRgba m r = .ok (some (bytesBE 4 v.toNat), r.advance 4) := by
  have hread := readField_over id h
  rwa [bytesBE_length] at hread

lemma getChar_over {v : BitVec 32} (h : Over m r (bytesBE 4 v.toNat ++ ys)) :
    readerGetChar m r = .ok (some (v.setWidth 8), r.advance 4) := by
  rw [readerGetChar, bind_of_some (int32_over h), pure_eq]

lemma getBlob_over (b : Blob) (h : Over m r ((Argument.blob b).encode ++ ys)) :
    readerGetBlob m r = .ok (some (BitVec.ofNat 32 b.bytes.length, r.ptr + 4),
      r.advance (BitVec.ofNat 64 (Argument.blob b).encode.length)) := by
  have hfits := b.fits
  have hlen : (BitVec.ofNat 32 b.bytes.length).toNat = b.bytes.length := by
    rw [BitVec.toNat_ofNat, Nat.mod_eq_of_lt (by omega)]
  have hsize : ((BitVec.ofNat 32 b.bytes.length).signExtend 64).toNat = b.bytes.length := by
    rw [signExtend_toNat (by omega), hlen]
  have hpad : (paddedSize ((BitVec.ofNat 32 b.bytes.length).signExtend 64)).toNat =
      (padded b.bytes).length := by
    rw [paddedSize_toNat (by omega), hsize, length_padded]
  rw [Argument.encode, List.append_assoc] at h
  have hint : readerGetInt32 m r = .ok (some (BitVec.ofNat 32 b.bytes.length), r.advance 4) := by
    apply int32_over
    rwa [hlen]
  have hbody : Over m (r.advance 4) (padded b.bytes ++ ys) := h.drop (by simp)
  have hneed := hbody.need (n := paddedSize ((BitVec.ofNat 32 b.bytes.length).signExtend 64))
    (by rw [hpad, List.length_append]; omega)
  have hskip : 4 + paddedSize ((BitVec.ofNat 32 b.bytes.length).signExtend 64) =
      BitVec.ofNat 64 (Argument.blob b).encode.length := by
    rw [Argument.encode, List.length_append, bytesBE_length, BitVec.ofNat_add, ← hpad,
      BitVec.ofNat_toNat, BitVec.setWidth_eq]
    rfl
  rw [readerGetBlob, bind_of_some hint, bind_of_some (need_eq hneed), bind_of_some cursor_eq,
    bind_of_some skip_eq, pure_eq, ← hskip]
  simp only [Reader.advance, BitVec.add_assoc]

/-- What `lv2_osc_reader_arg_raw` leaves in `arg` for the argument encoded at `p`. -/
def Argument.store (p : Addr) (arg : Arg) : Argument → Arg
  | .int32 v => { arg with value := some (.i v), size := 4 }
  | .float bits => { arg with value := some (.f bits), size := 4 }
  | .string s => { arg with value := some (.s p), size := BitVec.ofNat 32 (s.chars.length + 1) }
  | .blob b => { arg with value := some (.b (p + 4)), size := BitVec.ofNat 32 b.bytes.length }
  | .true | .false | .nil | .impulse => arg
  | .int64 v => { arg with value := some (.h v), size := 8 }
  | .double bits => { arg with value := some (.d bits), size := 8 }
  | .timetag v => { arg with value := some (.t v), size := 8 }
  | .symbol s => { arg with value := some (.S p), size := BitVec.ofNat 32 (s.chars.length + 1) }
  | .char v => { arg with value := some (.c (v.setWidth 8)), size := 4 }
  | .midi _ => { arg with value := some (.m p), size := 4 }
  | .rgba bytes => { arg with value := some (.rgba (bytesBE 4 bytes.toNat)), size := 4 }

@[simp] lemma Argument.store_type (a : Argument) (p : Addr) (arg : Arg) :
    (a.store p arg).type = arg.type := by cases a <;> rfl

@[simp] lemma Argument.store_endPtr (a : Argument) (p : Addr) (arg : Arg) :
    (a.store p arg).endPtr = arg.endPtr := by cases a <;> rfl

@[simp] lemma Argument.store_path (a : Argument) (p : Addr) (arg : Arg) :
    (a.store p arg).path = arg.path := by cases a <;> rfl

/-- Each encoded argument is read as such and passed over. -/
lemma argRaw_over (a : Argument) {arg : Arg} (htype : load m arg.type = .ok a.type.toChar)
    (h : Over m r (a.encode ++ ys)) :
    readerArgRaw arg m r =
      .ok (some (a.store r.ptr arg), r.advance (BitVec.ofNat 64 a.encode.length)) := by
  rw [readerArgRaw, bind_of_some (peek_eq htype), OscType.ofChar_toChar]
  cases a with
  | int32 v => exact bind_of_some (int32_over h)
  | float bits => exact bind_of_some (int32_over h)
  | string s =>
    exact (bind_of_some (getString_over s h)).trans (bind_of_some (peek_eq (strlen_over s h)))
  | blob b => exact bind_of_some (getBlob_over b h)
  | true | false | nil | impulse => simp [Argument.type, Argument.store, Argument.encode, pure_eq,
      Reader.advance]
  | int64 v => exact bind_of_some (int64_over h)
  | double bits => exact bind_of_some (int64_over h)
  | timetag v => exact bind_of_some (int64_over h)
  | symbol s =>
    exact (bind_of_some (getString_over s h)).trans (bind_of_some (peek_eq (strlen_over s h)))
  | char v => exact bind_of_some (getChar_over h)
  | midi bytes => exact bind_of_some (getMidi_over h)
  | rgba bytes => exact bind_of_some (getRgba_over h)

/-- The terminator of the type string selects no case. -/
lemma argRaw_end {arg : Arg} (htype : load m arg.type = .ok 0) :
    readerArgRaw arg m r = .ok (some arg, r) := by
  rw [readerArgRaw, bind_of_some (peek_eq htype), OscType.ofChar_zero]
  exact pure_eq arg

/-- The cursor stands behind the first of `args`, whose value `arg` holds; behind the
last one `arg` stays at the terminator of the type string. -/
structure AtArgs (m : Memory) (r : Reader) (arg : Arg) (args : List Argument) : Prop where
  types : Holds m arg.type (typeChars args ++ [0])
  fields : Over m r (encodeArgs args.tail)
  stop : arg.endPtr = r.endPtr
  current : ∀ v rest, args = .int32 v :: rest → arg.i = v

lemma atArgs_enter (arg : Arg) {args : List Argument}
    (htypes : Holds m arg.type (typeChars args ++ [0])) (h : Over m r (encodeArgs args))
    (hstop : arg.endPtr = r.endPtr) :
    ∃ arg' r', readerArgRaw arg m r = .ok (some arg', r') ∧ AtArgs m r' arg' args ∧
      arg'.path = arg.path := by
  cases args with
  | nil =>
    refine ⟨arg, r, argRaw_end (load_holds htypes), ⟨htypes, h, hstop, ?_⟩, rfl⟩
    rintro v rest ⟨⟩
  | cons a args =>
    rw [encodeArgs, List.flatMap_cons] at h
    refine ⟨a.store r.ptr arg, _, argRaw_over a (load_holds htypes) h, ⟨?_, ?_, ?_, ?_⟩, by simp⟩
    · rwa [Argument.store_type]
    · exact h.drop_length
    · rw [Argument.store_endPtr, hstop, Reader.advance_endPtr]
    · rintro v rest ⟨⟩
      rfl

namespace AtArgs
variable {arg : Arg} {a : Argument} {args : List Argument}

lemma isEnd_nil (h : AtArgs m r arg []) : readerArgIsEnd m r arg = .ok true := by
  rw [readerArgIsEnd, load_holds h.types]
  rfl

lemma load_type (h : AtArgs m r arg (a :: args)) : load m arg.type = .ok a.type.toChar :=
  load_holds h.types

lemma isEnd_cons (h : AtArgs m r arg (a :: args)) : readerArgIsEnd m r arg = .ok false := by
  have hne := a.type.toChar_ne_zero
  have hstop := h.fields.stop
  have hle : ¬ arg.endPtr < r.ptr := by
    rw [h.stop, BitVec.lt_def]
    omega
  rw [readerArgIsEnd, h.load_type, ok_bind, decide_eq_false hne, decide_eq_false hle]
  rfl

lemma next (h : AtArgs m r arg (a :: args)) :
    ∃ arg' r', readerArgNext arg m r = .ok (some arg', r') ∧ AtArgs m r' arg' args := by
  have htypes : Holds m (arg.type + 1) (typeChars args ++ [0]) := h.types.2
  obtain ⟨arg', r', hraw, hat, -⟩ :=
    atArgs_enter { arg with type := arg.type + 1 } htypes h.fields h.stop
  exact ⟨arg', r', hraw, hat⟩

end AtArgs

/-- Both parses of a well-formed message succeed, with the cursor at its arguments. -/
lemma messageBegin_over (msg : Message) (h : Over m r msg.encode) {len : Addr}
    (hlen : r.ptr + len = r.endPtr) :
    ∃ arg r', readerMessageBegin len m r = .ok (some arg, r') ∧ AtArgs m r' arg msg.args ∧
      arg.path = r.ptr := by
  have hneed : readerOverflow r len = false := by simp [readerOverflow, hlen]
  rw [Message.encode] at h
  have hpath := getString_over msg.pathString h
  have htail := h.drop_length
  have htype := getString_over msg.typeString htail
  have hchars := msg.typeString.holds htail.holds
  obtain ⟨arg, r', hraw, hat, harg⟩ :=
    atArgs_enter ⟨_, 0, none, r.ptr, r.endPtr⟩ hchars.2 htail.drop_length rfl
  refine ⟨arg, r', ?_, hat, harg⟩
  rw [readerMessageBegin, readerArgBegin, bind_of_some (need_eq hneed), bind_of_some cursor_eq,
    bind_of_some hpath, bind_of_some htype, bind_of_some (peek_eq (load_holds hchars)),
    if_neg (by simp), hlen]
  exact hraw

end Osc2FtdiDmx.MessageEncoding
