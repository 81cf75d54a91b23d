import Osc2FtdiDmx.MessageCues
import Osc2FtdiDmx.WriterSpecs

/-! The `_clone` of osc_test.c: a packet is taken apart by the reader and put together again
by the writer. A failing assertion is a failing `Put`; a budget bounds the recursion and the
loops. -/
namespace Osc2FtdiDmx.PacketClone
open BytesEndian OscMemory OscReader ReaderSpecs PacketHandler PacketFlatten MessageEncoding
open MessageCues
open MemoryStores OscWriter WriterSpecs Put

/-- A look at the memory. -/
def peek {α : Type} (f : Memory → Except Fault α) : Put α := fun m w => do
  let a ← f m
  pure (some a, m, w)

/-- A call of the reader. -/
def call {α : Type} (x : Get α) (r : Reader) : Put (Option α × Reader) := fun m w => do
  let ar ← x m r
  pure (some ar, m, w)

/-- The C string that a pointer is handed over for. -/
def cstring (m : Memory) (p : Addr) : Except Fault (List Byte) := do
  let n ← strlen m p
  loads m p n

/-- The cases of the switch; the union is read as the type says. -/
def cloneTyped (arg : Arg) : OscType → Put Unit
  | .int32 =>
      match arg.value with
      | some (.i v) => writerAddInt32 v
      | _ => undefined
  | .float =>
      match arg.value with
      | some (.f v) => writerAddFloat v
      | _ => undefined
  | .string =>
      match arg.value with
      | some (.s p) => do writerAddString (← peek (cstring · p))
      | _ => undefined
  | .blob =>
      match arg.value with
      | some (.b p) => do
          writerAddBlob arg.size (← peek (loads · p (arg.size.signExtend 64).toNat))
      | _ => undefined
  | .int64 =>
      match arg.value with
      | some (.h v) => writerAddInt64 v
      | _ => undefined
  | .double =>
      match arg.value with
      | some (.d v) => writerAddDouble v
      | _ => undefined
  | .timetag =>
      match arg.value with
      | some (.t v) => writerAddTimetag v
      | _ => undefined
  | .true | .false | .nil | .impulse => pure ()
  | .midi =>
      match arg.value with
      | some (.m p) => do
          writerAddMidi arg.size (← peek (loads · p (arg.size.signExtend 64).toNat))
      | _ => undefined
  | .symbol =>
      match arg.value with
      | some (.S p) => do writerAddSymbol (← peek (cstring · p))
      | _ => undefined
  | .char =>
      match arg.value with
      | some (.c v) => writerAddChar v
      | _ => undefined
  | .rgba =>
      match arg.value with
      | some (.rgba [r, g, b, a]) => writerAddRgba r g b a
      | _ => undefined

def cloneArg (arg : Arg) : Put Unit := do
  match OscType.ofChar (← peek (load · arg.type)) with
  | none => pure ()
  | some type => cloneTyped arg type

/-- The loop of `OSC_READER_MESSAGE_ITERATE`; an argument that cannot be read ends it. -/
def cloneArgs : ℕ → Reader → Arg → Put Unit
  | 0, _, _ => undefined
  | fuel + 1, r, arg => do
      if ← peek (readerArgIsEnd · r arg) then pure () else
        cloneArg arg
        match ← call (readerArgNext arg) r with
        | (none, _) => pure ()
        | (some arg, r) => cloneArgs fuel r arg

/-- The loop of `OSC_READER_BUNDLE_ITERATE`. -/
def cloneItems (packet : Reader → Addr → Put Unit) : ℕ → Reader → Item → Put Unit
  | 0, _, _ => undefined
  | fuel + 1, r, itm => do
      if readerItemIsEnd r itm then pure () else
        let ref ← writerPushItem
        packet (readerInitialize itm.body itm.extent) itm.extent
        writerPopItem ref
        match ← call (readerItemNext itm) r with
        | (none, _) => pure ()
        | (some itm, r) => cloneItems packet fuel r itm

def cloneBundle (packet : Reader → Addr → Put Unit) (fuel : ℕ) (r : Reader) (size : Addr) :
    Put Unit := do
  match ← call (readerBundleBegin size) r with
  | (none, _) => Put.fail
  | (some itm, r) =>
      let ref ← writerPushBundle itm.timetag
      cloneItems packet fuel r itm
      writerPopBundle ref

def cloneMessage (fuel : ℕ) (r : Reader) (size : Addr) : Put Unit := do
  match ← call (readerMessageBegin size) r with
  | (none, _) => Put.fail
  | (some arg, r) =>
      writerAddPath (← peek (cstring · arg.path))
      writerAddFormat (← peek (cstring · arg.type))
      cloneArgs fuel r arg

def clone : ℕ → Reader → Addr → Put Unit
  | 0, _, _ => undefined
  | fuel + 1, r, size => do
      if ← peek (readerIsBundle · r) then cloneBundle (clone fuel) fuel r size
      else if ← peek (readerIsMessage · r) then cloneMessage fuel r size
      else pure ()

/-- The four bytes that the reader hands over for a MIDI argument. -/
def midiBytes (v : BitVec 32) : MidiBytes := ⟨bytesBE 4 v.toNat, by simp⟩

/-- What the writer lays for an argument that was read. Of a character it is the low byte,
with its sign. -/
def argCells : Argument → Cells
  | .int32 v | .float v | .midi v | .rgba v => (bytesBE 4 v.toNat).map some
  | .char v => (bytesBE 4 ((v.setWidth 8).signExtend 32).toNat).map some
  | .int64 v | .double v | .timetag v => (bytesBE 8 v.toNat).map some
  | .string s | .symbol s => s.encode.map some
  | .blob b => blobCells b
  | .true | .false | .nil | .impulse => []

def messageCells (msg : Message) : Cells :=
  msg.pathString.encode.map some ++
    (msg.typeString.encode.map some ++ msg.args.flatMap argCells)

mutual

def scoreCells : Score → Cells
  | .message msg => messageCells msg
  | .bundle timetag elems =>
      (bundleTag ++ bytesBE 8 timetag.toNat).map some ++ itemCells elems

def itemCells : List Score → Cells
  | [] => []
  | s :: ss => (bytesBE 4 (scoreCells s).length).map some ++ scoreCells s ++ itemCells ss

end

lemma argCells_length (a : Argument) : (argCells a).length = a.encode.length := by
  cases a with
  | blob b =>
    rw [argCells, blobCells_length, Argument.encode, List.length_append, bytesBE_length,
      length_padded]
  | _ => simp [argCells, Argument.encode]

lemma messageCells_length (msg : Message) : (messageCells msg).length = msg.encode.length := by
  simp [messageCells, Message.encode, encodeArgs, List.length_flatMap, argCells_length]

section Reading
variable {I : Memory → Writer → Prop} {α : Type} {m : Memory} {w : Writer} {r r' : Reader}
  {cs : Cells} {ys : List Byte} {p : Addr}

lemma peek_eq {f : Memory → Except Fault α} {a : α} (h : f m = .ok a) :
    peek f m w = .ok (some a, m, w) := by
  rw [peek, h]
  rfl

lemma call_eq {x : Get α} {a : Option α} (h : x m r = .ok (a, r')) :
    call x r m w = .ok (some (a, r'), m, w) := by
  rw [call, h]
  rfl

lemma cstring_holds {s : List Byte} (hs : (0 : Byte) ∉ s) (h : Holds m p (s ++ [0]))
    (hp : p.toNat + s.length < 2 ^ 64) : cstring m p = .ok s := by
  rw [cstring, strlen_holds hs h hp, ok_bind]
  exact loads_holds h

lemma cstring_over (s : CString) (h : Over m r (s.encode ++ ys)) :
    cstring m r.ptr = .ok s.chars := by
  have hbelow := string_below s h
  exact cstring_holds s.noNul (s.holds h.holds) (by omega)

lemma loads_over {xs : List Byte} (h : Over m r (xs ++ ys)) : loads m r.ptr xs.length = .ok xs :=
  loads_holds h.holds

lemma four_bytes (v : BitVec 32) : ∃ r g b a, bytesBE 4 v.toNat = [r, g, b, a] :=
  List.length_eq_four.mp (bytesBE_length 4 v.toNat)

/-- An argument that the reader has stored is written as its cells. -/
lemma lays_typed (a : Argument) (arg : Arg) (h : ∀ m w, I m w → Over m r (a.encode ++ ys)) :
    Lays I (cloneTyped (a.store r.ptr arg) a.type) (argCells a) := by
  cases a with
  | int32 v => exact lays_be32 v
  | float bits => exact lays_be32 bits
  | string s =>
    exact (lays_string s.chars).congr fun m w hm =>
      bind_of_some (peek_eq (cstring_over s (h m w hm)))
  | blob b =>
    refine (lays_blob b).congr fun m w hm => bind_of_some (peek_eq ?_)
    have hfits := b.fits
    have hlen : (BitVec.ofNat 32 b.bytes.length).toNat = b.bytes.length := by
      rw [BitVec.toNat_ofNat, Nat.mod_eq_of_lt (by omega)]
    have hover := h m w hm
    rw [Argument.encode, List.append_assoc, padded, List.append_assoc] at hover
    have hload := loads_over (hover.drop (n := 4) (by simp))
    change loads m (r.ptr + 4) ((BitVec.ofNat 32 b.bytes.length).signExtend 64).toNat = _
    rw [signExtend_toNat (by omega), hlen]
    exact hload
  | true | false | nil | impulse => exact lays_pure
  | int64 v => exact lays_be64 v
  | double bits => exact lays_be64 bits
  | timetag v => exact lays_be64 v
  | symbol s =>
    exact (lays_string s.chars).congr fun m w hm =>
      bind_of_some (peek_eq (cstring_over s (h m w hm)))
  | char v => exact lays_be32 ((v.setWidth 8).signExtend 32)
  | midi v =>
    have hcells : midiCells (midiBytes v) = argCells (.midi v) := by
      simp [midiCells, midiBytes, argCells]
    rw [← hcells]
    refine (lays_midi (midiBytes v)).congr fun m w hm => ?_
    have hload := loads_over (h m w hm)
    rw [Argument.encode, bytesBE_length] at hload
    rw [midiBytes, bytesBE_length]
    exact bind_of_some (peek_eq hload)
  | rgba v =>
    obtain ⟨red, green, blue, alpha, hbytes⟩ := four_bytes v
    rw [argCells, Argument.type, Argument.store, hbytes]
    exact lays_rgba red green blue alpha

lemma lays_arg (a : Argument) {arg : Arg}
    (htype : ∀ m w, I m w → load m arg.type = .ok a.type.toChar)
    (h : ∀ m w, I m w → Over m r (a.encode ++ ys)) :
    Lays I (cloneArg (a.store r.ptr arg)) (argCells a) := by
  refine (lays_typed a arg h).congr fun m w hm => ?_
  have hlook : peek (load · (a.store r.ptr arg).type) m w = .ok (some a.type.toChar, m, w) := by
    rw [Argument.store_type]
    exact peek_eq (htype m w hm)
  rw [cloneArg, bind_of_some hlook, OscType.ofChar_toChar]

/-- The cursor stands before the arguments, and `arg` before the first of them. -/
structure Before (m : Memory) (r : Reader) (arg : Arg) (args : List Argument) : Prop where
  types : Holds m arg.type (typeChars args ++ [0])
  fields : Over m r (encodeArgs args)
  stop : arg.endPtr = r.endPtr

/-- The first argument is read, if there is one. -/
def enter (arg : Arg) (r : Reader) : List Argument → Arg × Reader
  | [] => (arg, r)
  | a :: _ => (a.store r.ptr arg, r.advance (BitVec.ofNat 64 a.encode.length))

lemma argRaw_enter {arg : Arg} {args : List Argument} (h : Before m r arg args) :
    readerArgRaw arg m r = .ok (some (enter arg r args).1, (enter arg r args).2) := by
  cases args with
  | nil => exact argRaw_end (load_holds h.types)
  | cons a args =>
    have hfields := h.fields
    rw [encodeArgs, List.flatMap_cons] at hfields
    exact argRaw_over a (load_holds h.types) hfields

/-- The loop over the arguments. By induction on them; each round writes the one that was
read in the round before. -/
lemma lays_args (hI : Kept I) (args : List Argument) {fuel : ℕ} (hfuel : args.length < fuel)
    {arg : Arg} (h : ∀ m w, I m w → Before m r arg args) :
    Lays I (cloneArgs fuel (enter arg r args).2 (enter arg r args).1) (args.flatMap argCells) := by
  induction args generalizing fuel arg r with
  | nil =>
    obtain ⟨fuel, rfl⟩ := Nat.exists_eq_succ_of_ne_zero hfuel.ne'
    refine lays_pure.congr fun m w hm => ?_
    have hend : readerArgIsEnd m r arg = .ok true := by
      rw [readerArgIsEnd, load_holds (h m w hm).types]
      rfl
    rw [cloneArgs, enter, bind_of_some (peek_eq hend), if_pos rfl]
  | cons a args ih =>
    obtain ⟨fuel, rfl⟩ := Nat.exists_eq_succ_of_ne_zero (Nat.ne_zero_of_lt hfuel)
    have hlater (m : Memory) (w : Writer) (hm : I m w) :
        Before m (r.advance (BitVec.ofNat 64 a.encode.length))
          { a.store r.ptr arg with type := (a.store r.ptr arg).type + 1 } args := by
      obtain ⟨htypes, hfields, hstop⟩ := h m w hm
      rw [encodeArgs, List.flatMap_cons] at hfields
      refine ⟨?_, hfields.drop_length, ?_⟩
      · rw [Argument.store_type]
        exact htypes.2
      · rw [Argument.store_endPtr, hstop, Reader.advance_endPtr]
    have hfirst : Lays I (cloneArg (a.store r.ptr arg)) (argCells a) := by
      have hover (m : Memory) (w : Writer) (hm : I m w) :
          Over m r (a.encode ++ encodeArgs args) := by
        have hfields := (h m w hm).fields
        rwa [encodeArgs, List.flatMap_cons] at hfields
      exact lays_arg a (fun m w hm => load_holds (h m w hm).types) hover
    have hrest : Lays I
        (do match ← call (readerArgNext (a.store r.ptr arg))
                (r.advance (BitVec.ofNat 64 a.encode.length)) with
            | (none, _) => pure ()
            | (some arg, r) => cloneArgs fuel r arg)
        (args.flatMap argCells) := by
      refine (ih (Nat.lt_of_succ_lt_succ hfuel) hlater).congr fun m w hm => ?_
      exact bind_of_some (call_eq (argRaw_enter (hlater m w hm)))
    refine (hfirst.seq hI hrest).congr fun m w hm => ?_
    have hmore : readerArgIsEnd m (r.advance (BitVec.ofNat 64 a.encode.length))
        (a.store r.ptr arg) = .ok false := by
      obtain ⟨htypes, hfields, hstop⟩ := h m w hm
      rw [encodeArgs, List.flatMap_cons] at hfields
      have hleft := hfields.drop_length.stop
      have hne := a.type.toChar_ne_zero
      have hle : ¬ (a.store r.ptr arg).endPtr < (r.advance (BitVec.ofNat 64 a.encode.length)).ptr := by
        rw [Argument.store_endPtr, hstop, BitVec.lt_def]
        rw [Reader.advance_endPtr] at hleft
        omega
      rw [readerArgIsEnd, Argument.store_type, load_holds htypes, ok_bind, decide_eq_false hne,
        decide_eq_false hle]
      rfl
    rw [cloneArgs, enter, bind_of_some (peek_eq hmore)]
    rfl

/-- Where the arguments of a message begin. -/
def argsReader (msg : Message) (r : Reader) : Reader :=
  (r.advance (BitVec.ofNat 64 msg.pathString.encode.length)).advance
    (BitVec.ofNat 64 msg.typeString.encode.length)

def argsStart (msg : Message) (r : Reader) : Arg :=
  ⟨r.ptr + BitVec.ofNat 64 msg.pathString.encode.length + 1, 0, none, r.ptr, r.endPtr⟩

section Message
variable {msg : Message}

lemma before_args (h : Over m r msg.encode) :
    Before m (argsReader msg r) (argsStart msg r) msg.args := by
  rw [Message.encode] at h
  have htypes := msg.typeString.holds h.drop_length.holds
  exact ⟨htypes.2, h.drop_length.drop_length, rfl⟩

lemma messageBegin_enter (h : Over m r msg.encode) {size : Addr} (hsize : r.ptr + size = r.endPtr) :
    readerMessageBegin size m r = .ok (some (enter (argsStart msg r) (argsReader msg r) msg.args).1,
      (enter (argsStart msg r) (argsReader msg r) msg.args).2) := by
  have hneed : readerOverflow r size = false := by simp [readerOverflow, hsize]
  have hraw := argRaw_enter (before_args h)
  rw [Message.encode] at h
  have hpath := getString_over msg.pathString h
  have htypes := getString_over msg.typeString h.drop_length
  have hcomma := load_holds (msg.typeString.holds h.drop_length.holds)
  rw [readerMessageBegin, readerArgBegin, Get.bind_of_some (Get.need_eq hneed),
    Get.bind_of_some Get.cursor_eq, Get.bind_of_some hpath, Get.bind_of_some htypes,
    Get.bind_of_some (Get.peek_eq hcomma), if_neg (by simp), hsize]
  exact hraw

@[simp] lemma enter_path (arg : Arg) (r : Reader) (args : List Argument) :
    (enter arg r args).1.path = arg.path := by
  cases args <;> simp [enter]

@[simp] lemma enter_type (arg : Arg) (r : Reader) (args : List Argument) :
    (enter arg r args).1.type = arg.type := by
  cases args <;> simp [enter]

lemma types_below (h : Over m r msg.encode) :
    (argsStart msg r).type.toNat + msg.args.length < 2 ^ 64 := by
  rw [Message.encode] at h
  have hbelow := string_below msg.typeString h.drop_length
  have hchars : msg.typeString.chars.length = msg.args.length + 1 := by
    simp [Message.typeString, typeChars]
  rw [hchars, Reader.advance_ptr] at hbelow
  change (r.ptr + _ + 1).toNat + _ < _
  rw [succ_toNat (by omega)]
  omega

lemma lays_message (hI : Kept I) {fuel : ℕ} (hfuel : msg.args.length < fuel) {size : Addr}
    (hsize : r.ptr + size = r.endPtr) (h : ∀ m w, I m w → Over m r msg.encode) :
    Lays I (cloneMessage fuel r size) (messageCells msg) := by
  set start := enter (argsStart msg r) (argsReader msg r) msg.args with hstart
  have hpath : Lays I (do writerAddPath (← peek (cstring · start.1.path)))
      (msg.pathString.encode.map some) := by
    refine (lays_string msg.pathString.chars).congr fun m w hm => ?_
    have hover := h m w hm
    rw [Message.encode] at hover
    rw [hstart, enter_path]
    exact bind_of_some (peek_eq (cstring_over msg.pathString hover))
  have hformat : Lays I (do writerAddFormat (← peek (cstring · start.1.type)))
      (msg.typeString.encode.map some) := by
    refine (lays_format (typeChars msg.args)).congr fun m w hm => ?_
    have hlen : (typeChars msg.args).length = msg.args.length := by simp [typeChars]
    have hbelow := types_below (h m w hm)
    rw [hstart, enter_type]
    refine bind_of_some (peek_eq (cstring_holds ?_ (before_args (h m w hm)).types (by omega)))
    exact fun hmem => typeChars_noNul msg.args (List.mem_cons_of_mem comma hmem)
  have hargs := lays_args hI msg.args hfuel fun m w hm => before_args (h m w hm)
  refine (hpath.seq hI (hformat.seq hI hargs)).congr fun m w hm => ?_
  rw [cloneMessage, bind_of_some (call_eq (messageBegin_enter (h m w hm) hsize)), bind_bind,
    bind_bind]

end Message

section Items
variable {elems : List Score} {s : Score} {itm : Item} {packet : Reader → Addr → Put Unit}
  {fuel : ℕ}

/-- The loop from the place before an item on. -/
def cloneFrom (packet : Reader → Addr → Put Unit) (fuel : ℕ) (r : Reader) (itm : Item) : Put Unit := do
  match ← call (readerItemRaw itm) r with
  | (none, _) => pure ()
  | (some itm, r) => cloneItems packet fuel r itm

lemma lays_from_nil (h : ∀ m w, I m w → Over m r []) : Lays I (cloneFrom packet fuel r itm) [] := by
  refine lays_pure.congr fun m w hm => ?_
  rw [cloneFrom, bind_of_some (call_eq (itemRaw_end (h m w hm)))]

lemma itemRaw_item (h : Over m r (encodeElems (packets (s :: elems))))
    (hsize : (encodeElems (packets (s :: elems))).length < 2 ^ 31) :
    readerItemRaw itm m r = .ok (some (itemOf itm r s.packet), r.advance 4) := by
  rw [packets, encodeElems] at h hsize
  simp only [List.length_append, bytesBE_length] at hsize
  exact itemRaw_over (by omega) rfl h

lemma cloneFrom_items (h : Over m r (encodeElems (packets (s :: elems))))
    (hsize : (encodeElems (packets (s :: elems))).length < 2 ^ 31) :
    cloneFrom packet fuel r itm m w =
      cloneItems packet fuel (r.advance 4) (itemOf itm r s.packet) m w := by
  rw [cloneFrom, bind_of_some (call_eq (itemRaw_item h hsize))]

/-- One round: the item is written, and the loop goes on behind it. -/
lemma cloneFrom_cons (h : Over m r (encodeElems (packets (s :: elems))))
    (hend : itm.endPtr = r.endPtr) (hsize : (encodeElems (packets (s :: elems))).length < 2 ^ 31) :
    cloneFrom packet (fuel + 1) r itm m w =
      (writerItem (packet (readerInitialize (r.ptr + 4) (BitVec.ofNat 64 s.packet.encode.length))
          (BitVec.ofNat 64 s.packet.encode.length)) >>= fun _ =>
        cloneFrom packet fuel ((r.advance 4).advance (BitVec.ofNat 64 s.packet.encode.length))
          (itemOf itm r s.packet)) m w := by
  rw [cloneFrom_items h hsize]
  rw [packets, encodeElems] at h hsize
  simp only [List.length_append, bytesBE_length] at hsize
  have hover : Over m (r.advance 4) (s.packet.encode ++ encodeElems (packets elems)) :=
    h.drop (by simp)
  have hmore : readerItemIsEnd (r.advance 4) (itemOf itm r s.packet) = false := by
    have hstop := hover.stop
    rw [readerItemIsEnd, decide_eq_false_iff_not, BitVec.lt_def]
    change ¬ itm.endPtr.toNat < (r.advance 4).ptr.toNat
    rw [hend]
    rw [Reader.advance_endPtr] at hstop
    omega
  rw [← itemOf_extent itm r (p := s.packet) (by omega), writerItem, bind_bind]
  simp only [cloneItems, hmore, bind_bind]
  rfl

lemma over_item (h : Over m r (encodeElems (packets (s :: elems)))) :
    Over m (readerInitialize (r.ptr + 4) (BitVec.ofNat 64 s.packet.encode.length)) s.packet.encode := by
  rw [packets, encodeElems] at h
  have hbody : Over m (r.advance 4) (s.packet.encode ++ encodeElems (packets elems)) :=
    h.drop (by simp)
  have hstop := hbody.stop
  have hbelow := hbody.below
  rw [List.length_append, Reader.advance_ptr] at hstop
  exact over_readerInit ⟨(holds_append.mp hbody.holds).1, by omega⟩

lemma over_items (h : Over m r (encodeElems (packets (s :: elems)))) :
    Over m ((r.advance 4).advance (BitVec.ofNat 64 s.packet.encode.length))
      (encodeElems (packets elems)) := by
  rw [packets, encodeElems] at h
  exact (h.drop (n := 4) (by simp)).drop_length

end Items

section Bundle
variable {t : BitVec 64} {elems : List Score} {n : ℕ} {size : Addr}

lemma bundleBegin_from (h : Over m r (Packet.bundle t (packets elems)).encode)
    (hsize : r.ptr + size = r.endPtr) :
    readerBundleBegin size m r =
      readerItemRaw ⟨0, 0, t, r.endPtr⟩ m ((r.advance 8).advance 8) := by
  rw [Packet.encode] at h
  exact bundleBegin_over h hsize

lemma over_elems (h : Over m r (Packet.bundle t (packets elems)).encode) :
    Over m ((r.advance 8).advance 8) (encodeElems (packets elems)) := by
  rw [Packet.encode] at h
  exact (h.drop (n := 8) rfl).drop (n := 8) (by simp)

lemma clone_bundle (h : Over m r (Packet.bundle t (packets elems)).encode) :
    clone (n + 1) r size m w = cloneBundle (clone n) n r size m w := by
  rw [Packet.encode] at h
  rw [clone, bind_of_some (peek_eq (isBundle_bundle h)), if_pos rfl]

/-- A bundle without an item is refused. -/
lemma clone_empty (h : Over m r (Packet.bundle t []).encode) (hsize : r.ptr + size = r.endPtr) :
    Stuck (clone (n + 1) r size) m w := by
  have hover : Over m r (Packet.bundle t (packets [])).encode := by rwa [packets]
  have hnone := over_elems hover
  rw [packets, encodeElems] at hnone
  have hbegin := bundleBegin_from hover hsize
  rw [itemRaw_end hnone] at hbegin
  refine ⟨[], w, .inl rfl, ?_⟩
  rw [clone_bundle hover, cloneBundle, bind_of_some (call_eq hbegin), put_nil]
  rfl

/-- A bundle with items is its head, and the loop over them. -/
lemma clone_items {s : Score} (h : Over m r (Packet.bundle t (packets (s :: elems))).encode)
    (hsize : r.ptr + size = r.endPtr)
    (hlen : (encodeElems (packets (s :: elems))).length < 2 ^ 31) :
    clone (n + 1) r size m w =
      writerBundle t (cloneItems (clone n) n (((r.advance 8).advance 8).advance 4)
        (itemOf ⟨0, 0, t, r.endPtr⟩ ((r.advance 8).advance 8) s.packet)) m w := by
  have hbegin := bundleBegin_from h hsize
  rw [itemRaw_item (over_elems h) hlen] at hbegin
  rw [clone_bundle h, cloneBundle, bind_of_some (call_eq hbegin)]
  rfl

end Bundle

end Reading

mutual

/-- No bundle of the packet is without an item. -/
def full : Score → Bool
  | .message _ => true
  | .bundle _ elems => !elems.isEmpty && allFull elems

def allFull : List Score → Bool
  | [] => true
  | s :: ss => full s && allFull ss

end

mutual

lemma scoreCells_length : ∀ s : Score, (scoreCells s).length = s.packet.encode.length
  | .message msg => messageCells_length msg
  | .bundle timetag elems => by
      rw [scoreCells, List.length_append, itemCells_length elems, Score.packet, Packet.encode]
      simp [bundleTag]
      omega

lemma itemCells_length : ∀ ss : List Score,
    (itemCells ss).length = (encodeElems (packets ss)).length
  | [] => rfl
  | s :: ss => by
      rw [itemCells, packets, encodeElems, List.length_append, List.length_append,
        itemCells_length ss, scoreCells_length s]
      simp
      omega

end

lemma packet_length_pos (s : Score) : 0 < s.packet.encode.length := by
  cases s with
  | message msg => simp [Score.packet, Packet.encode]
  | bundle timetag elems => simp [Score.packet, Packet.encode, bundleTag]

section Scores
variable {I : Memory → Writer → Prop}

mutual

/-- A packet in which no bundle is empty is written as its cells. -/
lemma lays_score (hI : Kept I) : ∀ (s : Score) (fuel : ℕ) {r : Reader} {size : Addr},
    full s = true → s.packet.encode.length < fuel → s.packet.encode.length < 2 ^ 31 →
    r.ptr + size = r.endPtr → (∀ m w, I m w → Over m r s.packet.encode) →
    Lays I (clone fuel r size) (scoreCells s)
  | .message msg, fuel, r, size, _, hfuel, _, hsize, h => by
      obtain ⟨fuel, rfl⟩ : ∃ j, fuel = j + 1 := ⟨fuel - 1, by omega⟩
      rw [Score.packet, Packet.encode, encode_slash] at hfuel
      rw [Score.packet, Packet.encode] at h
      have hargs : msg.args.length < fuel := by
        have hle := le_padLen (msg.args.length + 1 + 1)
        simp [Message.encode, Message.typeString, typeChars] at hfuel
        omega
      refine (lays_message hI hargs hsize h).congr fun m w hm => ?_
      have hslash : readerIsMessage m r = .ok true := isMessage_message (h m w hm)
      rw [clone, bind_of_some (peek_eq (isBundle_message (h m w hm))), if_neg (by simp),
        bind_of_some (peek_eq hslash), if_pos rfl]
  | .bundle t [], fuel, r, size, hfull, _, _, _, _ => by
      simp [full] at hfull
  | .bundle t (s :: ss), fuel, r, size, hfull, hfuel, hlen, hsize, h => by
      obtain ⟨fuel, rfl⟩ : ∃ j, fuel = j + 1 := ⟨fuel - 1, by omega⟩
      rw [Score.packet] at h
      rw [Score.packet, Packet.encode] at hfuel hlen
      simp only [List.length_append, bytesBE_length] at hfuel hlen
      rw [full, Bool.and_eq_true] at hfull
      have hbody : Lays I (cloneFrom (clone fuel) fuel ((r.advance 8).advance 8)
          ⟨0, 0, t, r.endPtr⟩) (itemCells (s :: ss)) :=
        lays_items hI (s :: ss) fuel fuel hfull.2 (by omega) (by omega) (by omega) rfl
          fun m w hm => over_elems (h m w hm)
      have hloop := hbody.congr fun m w hm =>
        (cloneFrom_items (over_elems (h m w hm)) (by omega)).symm
      rw [scoreCells]
      refine (lays_bundle hI t hloop ?_ (by rw [itemCells_length]; omega)).congr fun m w hm =>
        clone_items (h m w hm) hsize (by omega)
      rw [itemCells]
      simp [bytesBE]

lemma lays_items (hI : Kept I) : ∀ (ss : List Score) (fuel k : ℕ) {r : Reader} {itm : Item},
    allFull ss = true → (encodeElems (packets ss)).length < fuel →
    (encodeElems (packets ss)).length ≤ k → (encodeElems (packets ss)).length < 2 ^ 31 →
    itm.endPtr = r.endPtr → (∀ m w, I m w → Over m r (encodeElems (packets ss))) →
    Lays I (cloneFrom (clone fuel) k r itm) (itemCells ss)
  | [], fuel, k, r, itm, _, _, _, _, _, h => lays_from_nil h
  | s :: ss, fuel, k, r, itm, hfull, hfuel, hk, hlen, hend, h => by
      have hlen' := hlen
      rw [packets, encodeElems] at hfuel hk hlen'
      simp only [List.length_append, bytesBE_length] at hfuel hk hlen'
      obtain ⟨k, rfl⟩ : ∃ j, k = j + 1 := ⟨k - 1, by omega⟩
      rw [allFull, Bool.and_eq_true] at hfull
      have hitem := lays_item hI
        (lays_score hI s fuel hfull.1 (by omega) (by omega) rfl
          fun m w hm => over_item (h m w hm))
        (List.ne_nil_of_length_pos (by rw [scoreCells_length]; exact packet_length_pos s))
        (by rw [scoreCells_length]; omega)
      have hrest : Lays I (cloneFrom (clone fuel) k
          ((r.advance 4).advance (BitVec.ofNat 64 s.packet.encode.length))
          (itemOf itm r s.packet)) (itemCells ss) :=
        lays_items hI ss fuel k hfull.2 (by omega) (by omega) (by omega) hend
          fun m w hm => over_items (h m w hm)
      rw [itemCells]
      exact (hitem.seq hI hrest).congr fun m w hm => cloneFrom_cons (h m w hm) hend hlen

end

mutual

/-- A packet with an empty bundle is refused, at the latest where the bundle is reached. -/
lemma fails_score (hI : Kept I) : ∀ (s : Score) (fuel : ℕ) {r : Reader} {size : Addr},
    full s = false → s.packet.encode.length < fuel → s.packet.encode.length < 2 ^ 31 →
    r.ptr + size = r.endPtr → (∀ m w, I m w → Over m r s.packet.encode) →
    Fails I (clone fuel r size) s.packet.encode.length
  | .message msg, fuel, r, size, hfull, _, _, _, _ => by
      simp [full] at hfull
  | .bundle t [], fuel, r, size, _, hfuel, _, hsize, h => by
      obtain ⟨fuel, rfl⟩ : ∃ j, fuel = j + 1 := ⟨fuel - 1, by omega⟩
      rw [Score.packet, packets] at h
      exact fun m w hm _ => clone_empty (h m w hm) hsize
  | .bundle t (s :: ss), fuel, r, size, hfull, hfuel, hlen, hsize, h => by
      obtain ⟨fuel, rfl⟩ : ∃ j, fuel = j + 1 := ⟨fuel - 1, by omega⟩
      rw [Score.packet] at h
      rw [Score.packet, Packet.encode] at hfuel hlen ⊢
      simp only [List.length_append, bytesBE_length] at hfuel hlen ⊢
      have hall : allFull (s :: ss) = false := by simpa [full] using hfull
      have hbody : Fails I (cloneFrom (clone fuel) fuel ((r.advance 8).advance 8)
          ⟨0, 0, t, r.endPtr⟩) (encodeElems (packets (s :: ss))).length :=
        fails_items hI (s :: ss) fuel fuel hall (by omega) (by omega) (by omega) rfl
          fun m w hm => over_elems (h m w hm)
      have hloop := hbody.congr fun m w hm =>
        (cloneFrom_items (over_elems (h m w hm)) (by omega)).symm
      refine ((((opens_bundle t).frame_fails hI hloop).congr fun m w hm =>
        clone_items (h m w hm) hsize (by omega))).mono ?_
      simp
      omega

lemma fails_items (hI : Kept I) : ∀ (ss : List Score) (fuel k : ℕ) {r : Reader} {itm : Item},
    allFull ss = false → (encodeElems (packets ss)).length < fuel →
    (encodeElems (packets ss)).length ≤ k → (encodeElems (packets ss)).length < 2 ^ 31 →
    itm.endPtr = r.endPtr → (∀ m w, I m w → Over m r (encodeElems (packets ss))) →
    Fails I (cloneFrom (clone fuel) k r itm) (encodeElems (packets ss)).length
  | [], fuel, k, r, itm, hfull, _, _, _, _, _ => by
      simp [allFull] at hfull
  | s :: ss, fuel, k, r, itm, hfull, hfuel, hk, hlen, hend, h => by
      have hlen' := hlen
      rw [packets, encodeElems] at hfuel hk hlen' ⊢
      simp only [List.length_append, bytesBE_length] at hfuel hk hlen' ⊢
      obtain ⟨k, rfl⟩ : ∃ j, k = j + 1 := ⟨k - 1, by omega⟩
      have hround (m : Memory) (w : Writer) (hm : I m w) :
          cloneFrom (clone fuel) (k + 1) r itm m w = _ := cloneFrom_cons (h m w hm) hend hlen
      cases hs : full s with
      | false =>
        have hitem := opens_item.frame_fails (c := writerPopItem) hI
          (fails_score hI s fuel hs (by omega) (by omega) rfl
            fun m w hm => over_item (h m w hm))
        exact (hitem.bind.congr hround).mono (by simp)
      | true =>
        have hrestFull : allFull ss = false := by simpa [allFull, hs] using hfull
        have hitem := lays_item hI
          (lays_score hI s fuel hs (by omega) (by omega) rfl
            fun m w hm => over_item (h m w hm))
          (List.ne_nil_of_length_pos (by rw [scoreCells_length]; exact packet_length_pos s))
          (by rw [scoreCells_length]; omega)
        have hrest : Fails I (cloneFrom (clone fuel) k
            ((r.advance 4).advance (BitVec.ofNat 64 s.packet.encode.length))
            (itemOf itm r s.packet)) (encodeElems (packets ss)).length :=
          fails_items hI ss fuel k hrestFull (by omega) (by omega) (by omega) hend
            fun m w hm => over_items (h m w hm)
        refine ((hitem.seq_fails hI hrest).congr hround).mono ?_
        simp [scoreCells_length]
        omega

end

end Scores

/-- A character argument loses all but its low byte and takes the sign of that. -/
def narrowArg : Argument → Argument
  | .char v => .char ((v.setWidth 8).signExtend 32)
  | a => a

def narrowMessage (msg : Message) : Message := ⟨msg.path, msg.args.map narrowArg⟩

mutual

def narrow : Score → Score
  | .message msg => .message (narrowMessage msg)
  | .bundle timetag elems => .bundle timetag (narrowAll elems)

def narrowAll : List Score → List Score
  | [] => []
  | s :: ss => narrow s :: narrowAll ss

end

lemma narrowArg_type (a : Argument) : (narrowArg a).type = a.type := by
  cases a <;> rfl

lemma blank_argCells (a : Argument) : blank (argCells a) = (narrowArg a).encode := by
  cases a with
  | blob b => simp [argCells, blobCells, narrowArg, Argument.encode, padded]
  | true | false | nil | impulse => rfl
  | _ => simp [argCells, narrowArg, Argument.encode]

lemma blank_args (args : List Argument) :
    blank (args.flatMap argCells) = encodeArgs (args.map narrowArg) := by
  induction args with
  | nil => rfl
  | cons a args ih =>
    rw [List.flatMap_cons, blank_append, ih, blank_argCells]
    rfl

lemma narrow_types (msg : Message) : (narrowMessage msg).typeString = msg.typeString := by
  simp [Message.typeString, typeChars, narrowMessage, narrowArg_type]

lemma blank_message (msg : Message) : blank (messageCells msg) = (narrowMessage msg).encode := by
  rw [messageCells, blank_append, blank_append, blank_full, blank_full, blank_args, Message.encode,
    narrow_types]
  rfl

mutual

lemma blank_score : ∀ s : Score, blank (scoreCells s) = (narrow s).packet.encode
  | .message msg => by
      rw [scoreCells, narrow, Score.packet, Packet.encode, encode_slash, blank_message]
  | .bundle timetag elems => by
      rw [scoreCells, narrow, Score.packet, Packet.encode, blank_append, blank_full,
        blank_items elems, List.append_assoc]

lemma blank_items : ∀ ss : List Score, blank (itemCells ss) = encodeElems (packets (narrowAll ss))
  | [] => rfl
  | s :: ss => by
      have hlen : (scoreCells s).length = (narrow s).packet.encode.length := by
        rw [← blank_score s, blank_length]
      rw [itemCells, narrowAll, packets, encodeElems, blank_append, blank_append, blank_full,
        blank_score s, blank_items ss, hlen, List.append_assoc]

end

/-- The source lies beside what is left of the buffer. -/
def Beside (a : Addr) (bs : List Byte) (m : Memory) (w : Writer) : Prop :=
  Placed m a bs ∧ (a.toNat + bs.length ≤ w.ptr.toNat ∨ w.endPtr.toNat ≤ a.toNat)

lemma kept_beside (a : Addr) (bs : List Byte) : Kept (Beside a bs) := by
  rintro m w cs ⟨hplaced, hside⟩ h hroom
  have hsource := hplaced.below
  have hbelow := h.below
  have hptr := h.ptr_toNat (k := cs.length) le_rfl
  refine ⟨⟨holds_apart hplaced.holds fun i hi => ?_, hsource⟩, ?_⟩
  · have hat : (a + BitVec.ofNat 64 i).toNat = a.toNat + i := by
      rw [BitVec.toNat_add, BitVec.toNat_ofNat]
      omega
    have hoffset : offset w.ptr (a + BitVec.ofNat 64 i) =
        (2 ^ 64 - w.ptr.toNat + (a.toNat + i)) % 2 ^ 64 := by
      rw [offset, BitVec.toNat_sub, hat]
    obtain rfl | hlt := hroom
    · exact Nat.zero_le _
    · rw [hoffset]
      omega
  · simp only [Writer.advance]
    rw [hptr]
    omega

/-- The copy of a packet. It is made exactly where no bundle is empty and the buffer is longer
than the packet; it is made inside the buffer; and it is the packet, characters narrowed,
exactly where zeros lay under the padding of the blobs. -/
theorem clone_law (s : Score) (m : Memory) (a buf size : Addr) (fuel : ℕ)
    (hsource : Placed m a s.packet.encode)
    (hlen : s.packet.encode.length < 2 ^ 31) (hmapped : Mapped m buf size.toNat)
    (hbelow : buf.toNat + size.toNat + s.packet.encode.length + 16 ≤ 2 ^ 64)
    (hapart : a.toNat + s.packet.encode.length ≤ buf.toNat ∨ buf.toNat + size.toNat ≤ a.toNat)
    (hfuel : s.packet.encode.length < fuel) :
    ∃ result m' w',
      clone fuel (readerInitialize a (BitVec.ofNat 64 s.packet.encode.length))
          (BitVec.ofNat 64 s.packet.encode.length) m (writerInitialize buf size) =
        .ok (result, m', w') ∧
      (result.isSome ↔ full s ∧ s.packet.encode.length < size.toNat) ∧
      (∀ p, size.toNat ≤ offset buf p → m' p = m p) ∧
      (result.isSome →
        writerFinalize w' = (some buf, BitVec.ofNat 64 s.packet.encode.length) ∧
        (Holds m' buf (narrow s).packet.encode ↔
          ∀ i, (scoreCells s)[i]? = some none → m (buf + BitVec.ofNat 64 i) = some 0)) := by
  have hbeside : Beside a s.packet.encode m (writerInitialize buf size) := by
    refine ⟨hsource, ?_⟩
    rwa [start_end (by omega)]
  have hcells := scoreCells_length s
  have hover (m : Memory) (w : Writer) (hm : Beside a s.packet.encode m w) :=
    over_readerInit hm.1
  cases hfull : full s with
  | false =>
    have hstuck := fails_score (kept_beside a s.packet.encode) s fuel hfull hfuel hlen rfl hover m _
      hbeside (ready_start hmapped hbelow)
    obtain ⟨m', w', hrun, houtside⟩ := stuck_outside hstuck (by omega)
    exact ⟨none, m', w', hrun, by simp, houtside, by simp⟩
  | true =>
    have hlays := lays_score (kept_beside a s.packet.encode) s fuel hfull hfuel hlen rfl hover
    obtain ⟨result, m', w', hrun, hdone, houtside, hcopy⟩ := hlays.outcome hbeside
      (by rw [hcells]; exact packet_length_pos s) hmapped (by rwa [hcells])
    rw [hcells] at hdone hcopy
    refine ⟨result, m', w', hrun, by simpa using hdone, houtside, fun hsome => ?_⟩
    obtain ⟨hfinal, rfl⟩ := hcopy hsome
    refine ⟨hfinal, ?_⟩
    rw [← blank_score s]
    exact holds_blank (by omega)

section Example

lemma letter_noNul : (0 : Byte) ∉ [(0x61 : Byte)] := by decide

lemma three_fits : [(1 : Byte), 2, 3].length < 2 ^ 31 := by decide

/-- A bundle in a bundle, with an integer, a character and three bytes of a blob. -/
def nestedScore : Score :=
  .bundle oscImmediate [.bundle 7 [.message ⟨⟨[0x61], letter_noNul⟩, [.int32 5, .char 0x16f]⟩],
    .message ⟨⟨[0x61], letter_noNul⟩, [.blob ⟨[1, 2, 3], three_fits⟩]⟩]

/-- The packet in an empty memory. -/
def nestedMemory : Memory :=
  put (fun _ => some 0) 0x1000 (nestedScore.packet.encode.map some)

lemma nestedMemory_mapped (p : Addr) : (nestedMemory p).isSome := by
  simp [nestedMemory, put]

lemma nestedMemory_placed : Placed nestedMemory 0x1000 nestedScore.packet.encode := by
  have hholds : Holds nestedMemory 0x1000
      (filled (fun _ => some 0) 0x1000 (nestedScore.packet.encode.map some)) :=
    holds_put (fun _ _ => rfl) (by decide)
  rw [filled_full] at hholds
  exact ⟨hholds, by decide⟩

lemma nestedMemory_zero {i : ℕ} (h : i < 0x1000) :
    nestedMemory (0x2000 + BitVec.ofNat 64 i) = some 0 := by
  rw [nestedMemory, put_of_ge]
  have hlen : (nestedScore.packet.encode.map some).length ≤ 0x1000 := by decide
  unfold offset
  bv_omega

lemma nestedScore_length : nestedScore.packet.encode.length = 76 := by decide

theorem clone_law_nested : ∃ m' w',
    clone 100 (readerInitialize 0x1000 (BitVec.ofNat 64 nestedScore.packet.encode.length))
        (BitVec.ofNat 64 nestedScore.packet.encode.length) nestedMemory
        (writerInitialize 0x2000 77) = .ok (some (), m', w') ∧
    writerFinalize w' = (some 0x2000, BitVec.ofNat 64 nestedScore.packet.encode.length) ∧
    Holds m' 0x2000 (narrow nestedScore).packet.encode := by
  obtain ⟨result, m', w', hrun, hdone, -, hcopy⟩ := clone_law nestedScore
    nestedMemory 0x1000 0x2000 77 100 nestedMemory_placed (by rw [nestedScore_length]; decide)
    (fun i _ => nestedMemory_mapped _)
    (by rw [nestedScore_length]; decide) (by rw [nestedScore_length]; decide)
    (by rw [nestedScore_length]; decide)
  have hsome : result.isSome := hdone.mpr ⟨by decide, by rw [nestedScore_length]; decide⟩
  obtain ⟨hfinal, hholds⟩ := hcopy hsome
  obtain ⟨done, rfl⟩ := Option.isSome_iff_exists.mp hsome
  refine ⟨m', w', hrun, hfinal, hholds.mpr fun i hi => nestedMemory_zero ?_⟩
  have hlt := (List.getElem?_eq_some_iff.mp hi).1
  rw [scoreCells_length, nestedScore_length] at hlt
  omega

end Example

end Osc2FtdiDmx.PacketClone
