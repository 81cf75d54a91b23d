import Osc2FtdiDmx.OscMemory

/-! The cursor of reader.h over one OSC packet. A reading function of the source
that reports success by `true` or a non-NULL pointer and moves `reader->ptr` is a
`Get`: it faults, fails with the cursor where it was left, or yields a value. -/
namespace Osc2FtdiDmx.OscReader
open BytesEndian OscMemory

structure Reader where
  buf : Addr
  ptr : Addr
  endPtr : Addr
  deriving DecidableEq, Repr

def readerInitialize (buf size : Addr) : Reader := ⟨buf, buf, buf + size⟩

/-- The comparison of `lv2_osc_reader_overflow`: the sum wraps around. -/
def readerOverflow (r : Reader) (size : Addr) : Bool := decide (r.endPtr < r.ptr + size)

def Reader.advance (r : Reader) (n : Addr) : Reader := { r with ptr := r.ptr + n }

@[simp] theorem Reader.advance_ptr (r : Reader) (n : Addr) : (r.advance n).ptr = r.ptr + n := rfl
@[simp] theorem Reader.advance_endPtr (r : Reader) (n : Addr) : (r.advance n).endPtr = r.endPtr := rfl
@[simp] theorem Reader.advance_buf (r : Reader) (n : Addr) : (r.advance n).buf = r.buf := rfl

def Get (α : Type) : Type := Memory → Reader → Except Fault (Option α × Reader)

namespace Get
variable {α β : Type}

def fail : Get α := fun _ r => .ok (none, r)

protected def pure (a : α) : Get α := fun _ r => .ok (some a, r)

protected def bind (x : Get α) (f : α → Get β) : Get β := fun m r =>
  match x m r with
  | .error e => .error e
  | .ok (none, r') => .ok (none, r')
  | .ok (some a, r') => f a m r'

instance : Monad Get where
  pure := Get.pure
  bind := Get.bind

/-- `if(lv2_osc_reader_overflow(reader, size)) return false;` -/
def need (size : Addr) : Get Unit := fun _ r =>
  .ok (if readerOverflow r size then none else some (), r)

def cursor : Get Addr := fun _ r => .ok (some r.ptr, r)

/-- `reader->ptr += n;` -/
def skip (n : Addr) : Get Unit := fun _ r => .ok (some (), r.advance n)

def peek (f : Memory → Except Fault α) : Get α := fun m r => do
  let a ← f m
  pure (some a, r)

variable {m : Memory} {r r' : Reader}

theorem bind_of_some {x : Get α} {f : α → Get β} {a : α} (h : x m r = .ok (some a, r')) :
    (x >>= f) m r = f a m r' := by
  change Get.bind x f m r = _
  simp [Get.bind, h]

theorem bind_of_none {x : Get α} {f : α → Get β} (h : x m r = .ok (none, r')) :
    (x >>= f) m r = .ok (none, r') := by
  change Get.bind x f m r = _
  simp [Get.bind, h]

theorem bind_bind {γ : Type} (x : Get α) (f : α → Get β) (g : β → Get γ) :
    x >>= f >>= g = x >>= fun a => f a >>= g := by
  funext m r
  change Get.bind (Get.bind x f) g m r = Get.bind x (fun a => Get.bind (f a) g) m r
  unfold Get.bind
  rcases x m r with e | ⟨_ | a, r₁⟩ <;> rfl

/-- A sequence yields a value exactly when both halves do. -/
theorem bind_ok_some {x : Get α} {f : α → Get β} {b : β} :
    (x >>= f) m r = .ok (some b, r') ↔
      ∃ a r₁, x m r = .ok (some a, r₁) ∧ f a m r₁ = .ok (some b, r') := by
  change Get.bind x f m r = _ ↔ _
  unfold Get.bind
  rcases h : x m r with e | ⟨_ | a, r₁⟩ <;> simp

theorem pure_ok_some {a b : α} : (pure a : Get α) m r = .ok (some b, r') ↔ b = a ∧ r' = r := by
  change Get.pure a m r = _ ↔ _
  simp [Get.pure, eq_comm]

theorem fail_ne_some {b : α} (h : (fail : Get α) m r = .ok (some b, r')) : False := by
  simp [fail] at h

theorem need_ok_some {n : Addr} {u : Unit} :
    need n m r = .ok (some u, r') ↔ readerOverflow r n = false ∧ r' = r := by
  cases h : readerOverflow r n <;> simp [need, h, eq_comm]

theorem cursor_ok_some {p : Addr} : cursor m r = .ok (some p, r') ↔ p = r.ptr ∧ r' = r := by
  simp [cursor, eq_comm]

theorem skip_ok_some {n : Addr} {u : Unit} :
    skip n m r = .ok (some u, r') ↔ r' = r.advance n := by
  simp [skip, eq_comm]

theorem peek_ok_some {f : Memory → Except Fault α} {a : α} :
    peek f m r = .ok (some a, r') ↔ f m = .ok a ∧ r' = r := by
  cases h : f m <;> simp [peek, h, eq_comm]

theorem need_eq {n : Addr} (h : readerOverflow r n = false) : need n m r = .ok (some (), r) :=
  need_ok_some.mpr ⟨h, rfl⟩

theorem need_overflow {n : Addr} (h : readerOverflow r n = true) : need n m r = .ok (none, r) := by
  rw [need, if_pos h]

theorem cursor_eq : cursor m r = .ok (some r.ptr, r) := rfl

theorem skip_eq {n : Addr} : skip n m r = .ok (some (), r.advance n) := rfl

theorem peek_eq {f : Memory → Except Fault α} {a : α} (h : f m = .ok a) :
    peek f m r = .ok (some a, r) := peek_ok_some.mpr ⟨h, rfl⟩

theorem pure_eq (a : α) : (pure a : Get α) m r = .ok (some a, r) := rfl

end Get
open Get

/-- `LV2_OSC_PADDED_SIZE`, in `size_t`. -/
def paddedSize (size : Addr) : Addr := (size + 3) &&& ~~~3#64

def readerBe32toh : Get (BitVec 32) := do
  need 4
  let p ← cursor
  let bs ← peek (loads · p 4)
  skip 4
  pure (BitVec.ofNat 32 (valueBE bs))

def readerBe64toh : Get (BitVec 64) := do
  need 8
  let p ← cursor
  let bs ← peek (loads · p 8)
  skip 8
  pure (BitVec.ofNat 64 (valueBE bs))

def readerGetInt32 : Get (BitVec 32) := readerBe32toh
def readerGetFloat : Get (BitVec 32) := readerBe32toh
def readerGetInt64 : Get (BitVec 64) := readerBe64toh
def readerGetTimetag : Get (BitVec 64) := readerBe64toh
def readerGetDouble : Get (BitVec 64) := readerBe64toh

def readerGetString : Get Addr := do
  let str ← cursor
  let n ← peek (strlen · str)
  let padded := paddedSize (BitVec.ofNat 64 n + 1)
  need padded
  skip padded
  pure str

def readerGetSymbol : Get Addr := readerGetString

def readerGetMidi : Get Addr := do
  need 4
  let p ← cursor
  skip 4
  pure p

/-- The blob length is a signed 32-bit number converted to `size_t`. -/
def readerGetBlob : Get (BitVec 32 × Addr) := do
  let len ← readerGetInt32
  let padded := paddedSize (len.signExtend 64)
  need padded
  let body ← cursor
  skip padded
  pure (len, body)

def readerGetRgba : Get (List Byte) := do
  need 4
  let p ← cursor
  let rgba ← peek (loads · p 4)
  skip 4
  pure rgba

def readerGetChar : Get Byte := do
  let i ← readerGetInt32
  pure (i.setWidth 8)

structure Item where
  size : BitVec 32
  body : Addr
  timetag : BitVec 64
  endPtr : Addr
  deriving DecidableEq, Repr

/-- The item size as `_handle_osc_packet` and the overflow check receive it. -/
def Item.extent (itm : Item) : Addr := itm.size.signExtend 64

def readerItemRaw (itm : Item) : Get Item := do
  let size ← readerGetInt32
  need (size.signExtend 64)
  let body ← cursor
  pure { itm with size, body }

/-- The eight bytes of `"#bundle"` with its terminator. -/
def bundleTag : List Byte := [0x23, 0x62, 0x75, 0x6e, 0x64, 0x6c, 0x65, 0x00]

def readerItemBegin (itm : Item) (len : Addr) : Get Item := do
  need len
  let p ← cursor
  let itm := { itm with endPtr := p + len }
  need 16
  if ← peek (strncmpEq · p bundleTag) then
    skip 8
    let timetag ← readerGetTimetag
    readerItemRaw { itm with timetag }
  else
    Get.fail

def readerItemIsEnd (r : Reader) (itm : Item) : Bool := decide (itm.endPtr < r.ptr)

def readerItemNext (itm : Item) : Get Item := do
  skip itm.extent
  readerItemRaw itm

/-- `OSC_READER_BUNDLE_BEGIN`. -/
def readerBundleBegin (len : Addr) : Get Item := readerItemBegin ⟨0, 0, 1, 0⟩ len

inductive OscType
  | int32 | float | string | blob | true | false | nil | impulse
  | int64 | double | timetag | symbol | char | midi | rgba
  deriving DecidableEq, Repr

def OscType.toChar : OscType → Byte
  | .int32 => 0x69 | .float => 0x66 | .string => 0x73 | .blob => 0x62
  | .true => 0x54 | .false => 0x46 | .nil => 0x4e | .impulse => 0x49
  | .int64 => 0x68 | .double => 0x64 | .timetag => 0x74
  | .symbol => 0x53 | .char => 0x63 | .midi => 0x6d | .rgba => 0x72

/-- The case label of `switch((LV2_OSC_Type)c)` that `c` selects, if any. -/
def OscType.ofChar (c : Byte) : Option OscType :=
  [OscType.int32, .float, .string, .blob, .true, .false, .nil, .impulse,
    .int64, .double, .timetag, .symbol, .char, .midi, .rgba].find? (·.toChar = c)

theorem OscType.ofChar_toChar (t : OscType) : OscType.ofChar t.toChar = some t := by
  cases t <;> rfl

theorem OscType.ofChar_zero : OscType.ofChar 0 = none := rfl

theorem OscType.toChar_ne_zero (t : OscType) : t.toChar ≠ 0 := by cases t <;> decide

/-- The anonymous union of `LV2_OSC_Arg`, by the member stored last. -/
inductive ArgValue
  | i (v : BitVec 32)
  | f (bits : BitVec 32)
  | s (p : Addr)
  | b (p : Addr)
  | h (v : BitVec 64)
  | d (bits : BitVec 64)
  | t (v : BitVec 64)
  | m (p : Addr)
  | S (p : Addr)
  | c (v : Byte)
  | rgba (bytes : List Byte)
  deriving DecidableEq, Repr

structure Arg where
  type : Addr
  size : BitVec 32
  value : Option ArgValue
  path : Addr
  endPtr : Addr
  deriving DecidableEq, Repr

/-- `arg->i`. -/
def Arg.i (arg : Arg) : BitVec 32 :=
  match arg.value with
  | some (.i v) => v
  | _ => 0

/-- A type character outside the enumeration matches no case and consumes nothing. -/
def readerArgRaw (arg : Arg) : Get Arg := do
  match OscType.ofChar (← peek (load · arg.type)) with
  | some .int32 =>
      let v ← readerGetInt32
      pure { arg with value := some (.i v), size := 4 }
  | some .float =>
      let v ← readerGetFloat
      pure { arg with value := some (.f v), size := 4 }
  | some .string =>
      let s ← readerGetString
      let n ← peek (strlen · s)
      pure { arg with value := some (.s s), size := BitVec.ofNat 32 (n + 1) }
  | some .blob =>
      let (size, b) ← readerGetBlob
      pure { arg with value := some (.b b), size }
  | some .true | some .false | some .nil | some .impulse => pure arg
  | some .int64 =>
      let v ← readerGetInt64
      pure { arg with value := some (.h v), size := 8 }
  | some .double =>
      let v ← readerGetDouble
      pure { arg with value := some (.d v), size := 8 }
  | some .timetag =>
      let v ← readerGetTimetag
      pure { arg with value := some (.t v), size := 8 }
  | some .midi =>
      let p ← readerGetMidi
      pure { arg with value := some (.m p), size := 4 }
  | some .symbol =>
      let s ← readerGetSymbol
      let n ← peek (strlen · s)
      pure { arg with value := some (.S s), size := BitVec.ofNat 32 (n + 1) }
  | some .char =>
      let v ← readerGetChar
      pure { arg with value := some (.c v), size := 4 }
  | some .rgba =>
      let rgba ← readerGetRgba
      pure { arg with value := some (.rgba rgba), size := 4 }
  | none => pure arg

def comma : Byte := 0x2c
def slash : Byte := 0x2f

def readerArgBegin (arg : Arg) (len : Addr) : Get Arg := do
  need len
  let p ← cursor
  let path ← readerGetString
  let type ← readerGetString
  if (← peek (load · type)) ≠ comma then Get.fail else
    readerArgRaw { arg with endPtr := p + len, path, type := type + 1 }

def readerArgIsEnd (m : Memory) (r : Reader) (arg : Arg) : Except Fault Bool := do
  let c ← load m arg.type
  pure (c = 0 || decide (arg.endPtr < r.ptr))

def readerArgNext (arg : Arg) : Get Arg := readerArgRaw { arg with type := arg.type + 1 }

/-- `OSC_READER_MESSAGE_BEGIN`. -/
def readerMessageBegin (len : Addr) : Get Arg := readerArgBegin ⟨0, 0, none, 0, 0⟩ len

def readerIsBundle (m : Memory) (r : Reader) : Except Fault Bool := strncmpEq m r.ptr bundleTag

def readerIsMessage (m : Memory) (r : Reader) : Except Fault Bool := do
  let c ← load m r.ptr
  pure (c = slash)

end Osc2FtdiDmx.OscReader
