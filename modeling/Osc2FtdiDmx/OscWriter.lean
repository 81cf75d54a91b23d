import Osc2FtdiDmx.MemoryStores
import Osc2FtdiDmx.OscReader

/-! The cursor of writer.h over the buffer of one OSC packet. A writing function of the
source is a `Put`: it faults, fails, or yields a value, and in either case leaves a memory
and a cursor. -/
namespace Osc2FtdiDmx.OscWriter
open BytesEndian OscMemory OscReader MemoryStores

structure Writer where
  buf : Addr
  ptr : Addr
  endPtr : Addr
  deriving DecidableEq

def writerInitialize (buf size : Addr) : Writer := ⟨buf, buf, buf + size⟩

/-- `lv2_osc_writer_get_size`. -/
def writerGetSize (w : Writer) : Addr := if w.buf < w.ptr then w.ptr - w.buf else 0

/-- `lv2_osc_writer_finalize`: the buffer and the size, or NULL. -/
def writerFinalize (w : Writer) : Option Addr × Addr :=
  if writerGetSize w ≠ 0 then (some w.buf, writerGetSize w) else (none, 0)

/-- The comparison of `lv2_osc_writer_overflow`: the sum wraps around, and the last byte of
the buffer is never used. -/
def writerOverflow (w : Writer) (size : Addr) : Bool := decide (w.endPtr ≤ w.ptr + size)

def Writer.advance (w : Writer) (n : Addr) : Writer := { w with ptr := w.ptr + n }

def Put (α : Type) : Type := Memory → Writer → Except Fault (Option α × Memory × Writer)

namespace Put
variable {α β : Type}

def fail : Put α := fun m w => .ok (none, m, w)

protected def pure (a : α) : Put α := fun m w => .ok (some a, m, w)

protected def bind (x : Put α) (f : α → Put β) : Put β := fun m w =>
  match x m w with
  | .error e => .error e
  | .ok (none, m', w') => .ok (none, m', w')
  | .ok (some a, m', w') => f a m' w'

instance : Monad Put where
  pure := Put.pure
  bind := Put.bind

/-- `if(lv2_osc_writer_overflow(writer, size)) return false;` -/
def need (size : Addr) : Put Unit := fun m w =>
  .ok (if writerOverflow w size then none else some (), m, w)

def cursor : Put Addr := fun m w => .ok (some w.ptr, m, w)

/-- `writer->ptr += n;` -/
def skip (n : Addr) : Put Unit := fun m w => .ok (some (), m, w.advance n)

/-- `writer->ptr = p;` -/
def moveTo (p : Addr) : Put Unit := fun m w => .ok (some (), m, { w with ptr := p })

/-- Stores through a pointer. -/
def write (p : Addr) (bs : List Byte) : Put Unit := fun m w => do
  let m ← stores m p bs
  pure (some (), m, w)

/-- A behaviour that C leaves undefined. -/
def undefined : Put α := fun _ _ => .error .outOfBounds

variable {m m' : Memory} {w w' : Writer}

theorem bind_of_some {x : Put α} {f : α → Put β} {a : α} (h : x m w = .ok (some a, m', w')) :
    (x >>= f) m w = f a m' w' := by
  change Put.bind x f m w = _
  simp [Put.bind, h]

theorem bind_of_none {x : Put α} {f : α → Put β} (h : x m w = .ok (none, m', w')) :
    (x >>= f) m w = .ok (none, m', w') := by
  change Put.bind x f m w = _
  simp [Put.bind, h]

theorem bind_bind {γ : Type} (x : Put α) (f : α → Put β) (g : β → Put γ) :
    x >>= f >>= g = x >>= fun a => f a >>= g := by
  funext m w
  change Put.bind (Put.bind x f) g m w = Put.bind x (fun a => Put.bind (f a) g) m w
  unfold Put.bind
  rcases x m w with e | ⟨_ | a, m₁, w₁⟩ <;> rfl

theorem cursor_eq : cursor m w = .ok (some w.ptr, m, w) := rfl

theorem skip_eq {n : Addr} : skip n m w = .ok (some (), m, w.advance n) := rfl

theorem pure_eq (a : α) : (pure a : Put α) m w = .ok (some a, m, w) := rfl

theorem need_eq {n : Addr} (h : writerOverflow w n = false) :
    need n m w = .ok (some (), m, w) := by
  rw [need, h]
  rfl

theorem need_overflow {n : Addr} (h : writerOverflow w n = true) :
    need n m w = .ok (none, m, w) := by
  rw [need, h]
  rfl

end Put
open Put

def writerHtobe32 (v : BitVec 32) : Put Unit := do
  need 4
  write (← cursor) (bytesBE 4 v.toNat)
  skip 4

def writerHtobe64 (v : BitVec 64) : Put Unit := do
  need 8
  write (← cursor) (bytesBE 8 v.toNat)
  skip 8

def writerAddInt32 (i : BitVec 32) : Put Unit := writerHtobe32 i
def writerAddFloat (f : BitVec 32) : Put Unit := writerHtobe32 f

/-- `s` is a C string without its terminator. The last word is blanked first. -/
def writerAddString (s : List Byte) : Put Unit := do
  let rawlen := BitVec.ofNat 64 s.length + 1
  let padded := paddedSize rawlen
  need padded
  let p ← cursor
  write (p + padded - 4) [0, 0, 0, 0]
  write p (s ++ [0])
  skip padded

def writerAddSymbol (s : List Byte) : Put Unit := writerAddString s

def writerAddInt64 (h : BitVec 64) : Put Unit := writerHtobe64 h
def writerAddDouble (d : BitVec 64) : Put Unit := writerHtobe64 d
def writerAddTimetag (t : BitVec 64) : Put Unit := writerHtobe64 t

/-- The padding of a blob is left as it was. -/
def writerAddBlobInline (len : BitVec 32) : Put Addr := do
  let lenPadded := paddedSize (len.signExtend 64)
  need (4 + lenPadded)
  writerAddInt32 len
  let body ← cursor
  skip lenPadded
  pure body

/-- `memcpy(dst, src, len)` from an object of the bytes `src`. -/
def copy (dst : Addr) (src : List Byte) (len : BitVec 32) : Put Unit :=
  if (len.signExtend 64).toNat ≤ src.length then write dst (src.take (len.signExtend 64).toNat)
  else undefined

def writerAddBlob (len : BitVec 32) (body : List Byte) : Put Unit := do
  copy (← writerAddBlobInline len) body len

def writerAddMidiInline (len : BitVec 32) : Put Addr := do
  if 4 < len.toInt then Put.fail else
    need 4
    let m ← cursor
    skip 4
    pure m

def writerAddMidi (len : BitVec 32) (m : List Byte) : Put Unit := do
  copy (← writerAddMidiInline len) m len

def writerAddRgba (r g b a : Byte) : Put Unit := do
  need 4
  write (← cursor) [r, g, b, a]
  skip 4

/-- `char` is signed. -/
def writerAddChar (c : Byte) : Put Unit := writerAddInt32 (c.signExtend 32)

def writerPushBundle (t : BitVec 64) : Put Addr := do
  need 16
  let ref ← cursor
  write ref bundleTag
  skip 8
  writerAddTimetag t
  pure ref

/-- The size that is popped is an `int32_t`; one that is not positive takes everything
back. -/
def writerPopBundle (ref : Addr) : Put Unit := do
  let size := ((← cursor) - ref - 16).setWidth 32
  if size.toInt ≤ 0 then
    moveTo ref
    Put.fail
  else pure ()

def writerPushItem : Put Addr := do
  need 4
  let ref ← cursor
  skip 4
  pure ref

def writerPopItem (ref : Addr) : Put Unit := do
  let size := ((← cursor) - ref - 4).setWidth 32
  if size.toInt ≤ 0 then
    moveTo ref
    Put.fail
  else write ref (bytesBE 4 size.toNat)

def writerAddPath (path : List Byte) : Put Unit := writerAddString path

def writerAddFormat (fmt : List Byte) : Put Unit := do
  let rawlen := BitVec.ofNat 64 fmt.length + 1
  let padded := paddedSize (rawlen + 1)
  need padded
  let p ← cursor
  write (p + padded - 4) [0, 0, 0, 0]
  write p [comma]
  write (p + 1) (fmt ++ [0])
  skip (1 + (padded - 1))

/-- What a variadic call hands over for one format character. -/
inductive VaArg
  | int32 (i : BitVec 32)
  | float (f : BitVec 32)
  | string (s : List Byte)
  | blob (len : BitVec 32) (body : List Byte)
  | int64 (h : BitVec 64)
  | double (d : BitVec 64)
  | timetag (t : BitVec 64)
  | midi (len : BitVec 32) (m : List Byte)
  | symbol (s : List Byte)
  | char (c : Byte)
  | rgba (r g b a : Byte)

/-- The case of the switch; an argument of another type is undefined behaviour. -/
def writerArg : OscType → VaArg → Put Unit
  | .int32, .int32 i => writerAddInt32 i
  | .float, .float f => writerAddFloat f
  | .string, .string s => writerAddString s
  | .blob, .blob len body => writerAddBlob len body
  | .int64, .int64 h => writerAddInt64 h
  | .double, .double d => writerAddDouble d
  | .timetag, .timetag t => writerAddTimetag t
  | .midi, .midi len m => writerAddMidi len m
  | .symbol, .symbol s => writerAddSymbol s
  | .char, .char c => writerAddChar c
  | .rgba, .rgba r g b a => writerAddRgba r g b a
  | _, _ => undefined

/-- Format characters without an argument, or outside the enumeration, write nothing. -/
def writerArgVarlist : List Byte → List VaArg → Put Unit
  | [], _ => pure ()
  | c :: fmt, args =>
      match OscType.ofChar c with
      | none | some .true | some .false | some .nil | some .impulse => writerArgVarlist fmt args
      | some type =>
          match args with
          | [] => undefined
          | a :: args => do
              writerArg type a
              writerArgVarlist fmt args

/-- `lv2_osc_writer_message_vararg`. -/
def writerMessageVarlist (path fmt : List Byte) (args : List VaArg) : Put Unit := do
  writerAddPath path
  writerAddFormat fmt
  writerArgVarlist fmt args

end Osc2FtdiDmx.OscWriter
