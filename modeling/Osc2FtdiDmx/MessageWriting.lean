import Osc2FtdiDmx.WriterSpecs

/-! The variadic calls of writer.h and reader.h: what `lv2_osc_writer_message_vararg` writes,
`lv2_osc_reader_arg_vararg` reads back. -/
namespace Osc2FtdiDmx.MessageWriting
open BytesEndian OscMemory OscReader ReaderSpecs MessageEncoding MemoryStores OscWriter WriterSpecs

/-- What a variadic read stores for one format character. -/
inductive VaOut
  | int32 (i : BitVec 32)
  | float (f : BitVec 32)
  | string (p : Addr)
  | blob (len : BitVec 32) (p : Addr)
  | int64 (h : BitVec 64)
  | double (d : BitVec 64)
  | timetag (t : BitVec 64)
  | midi (p : Addr)
  | symbol (p : Addr)
  | char (c : Byte)
  | rgba (bytes : List Byte)

section Code
variable (unsequenced : OscType → Get (Option VaOut))

/-- The cases of the switch. For a blob and for a colour several `va_arg()` are arguments of
one call; their order is open, and so is where the values are stored. -/
def readerArg : OscType → Get (Option VaOut)
  | .int32 => do return some (.int32 (← readerGetInt32))
  | .float => do return some (.float (← readerGetFloat))
  | .string => do return some (.string (← readerGetString))
  | .blob => unsequenced .blob
  | .true | .false | .nil | .impulse => pure none
  | .int64 => do return some (.int64 (← readerGetInt64))
  | .double => do return some (.double (← readerGetDouble))
  | .timetag => do return some (.timetag (← readerGetTimetag))
  | .midi => do return some (.midi (← readerGetMidi))
  | .symbol => do return some (.symbol (← readerGetSymbol))
  | .char => do return some (.char (← readerGetChar))
  | .rgba => unsequenced .rgba

/-- Characters outside the enumeration read nothing. -/
def readerArgChar (c : Byte) : Get (Option VaOut) :=
  match OscType.ofChar c with
  | none => pure none
  | some type => readerArg unsequenced type

def readerArgVarlist : List Byte → Get (List VaOut)
  | [] => pure []
  | c :: fmt => do
      let out ← readerArgChar unsequenced c
      let outs ← readerArgVarlist fmt
      pure (out.toList ++ outs)

end Code

/-- An argument as a caller of the writer means it. -/
inductive Param
  | int32 (i : BitVec 32)
  | float (f : BitVec 32)
  | string (s : CString)
  | blob (b : Blob)
  | true | false | nil | impulse
  | int64 (h : BitVec 64)
  | double (d : BitVec 64)
  | timetag (t : BitVec 64)
  | midi (e : MidiBytes)
  | symbol (s : CString)
  | char (c : Byte)
  | rgba (r g b a : Byte)

def Param.type : Param → OscType
  | .int32 _ => .int32 | .float _ => .float | .string _ => .string | .blob _ => .blob
  | .true => .true | .false => .false | .nil => .nil | .impulse => .impulse
  | .int64 _ => .int64 | .double _ => .double | .timetag _ => .timetag | .midi _ => .midi
  | .symbol _ => .symbol | .char _ => .char | .rgba _ _ _ _ => .rgba

/-- A read of it takes one `va_arg()` at most. -/
def Param.Sequenced : Param → Prop
  | .blob _ | .rgba _ _ _ _ => False
  | _ => True

/-- What is handed over for it. -/
def Param.arg : Param → Option VaArg
  | .int32 i => some (.int32 i)
  | .float f => some (.float f)
  | .string s => some (.string s.chars)
  | .blob b => some (.blob (BitVec.ofNat 32 b.bytes.length) b.bytes)
  | .true | .false | .nil | .impulse => none
  | .int64 h => some (.int64 h)
  | .double d => some (.double d)
  | .timetag t => some (.timetag t)
  | .midi e => some (.midi (BitVec.ofNat 32 e.bytes.length) e.bytes)
  | .symbol s => some (.symbol s.chars)
  | .char c => some (.char c)
  | .rgba r g b a => some (.rgba r g b a)

def Param.cells : Param → Cells
  | .int32 i => (bytesBE 4 i.toNat).map some
  | .float f => (bytesBE 4 f.toNat).map some
  | .string s | .symbol s => s.encode.map some
  | .blob b => blobCells b
  | .true | .false | .nil | .impulse => []
  | .int64 h => (bytesBE 8 h.toNat).map some
  | .double d => (bytesBE 8 d.toNat).map some
  | .timetag t => (bytesBE 8 t.toNat).map some
  | .midi e => midiCells e
  | .char c => (bytesBE 4 (c.signExtend 32).toNat).map some
  | .rgba r g b a => [r, g, b, a].map some

def format (params : List Param) : List Byte := params.map (·.type.toChar)

def arguments (params : List Param) : List VaArg := params.filterMap Param.arg

section Writing
variable {I : Memory → Writer → Prop}

lemma lays_param (p : Param) {a : VaArg} (ha : p.arg = some a) : Lays I (writerArg p.type a) p.cells := by
  cases p with
  | true | false | nil | impulse => simp [Param.arg] at ha
  | int32 i => cases ha; exact lays_be32 i
  | float f => cases ha; exact lays_be32 f
  | string s => cases ha; exact lays_string s.chars
  | blob b => cases ha; exact lays_blob b
  | int64 h => cases ha; exact lays_be64 h
  | double d => cases ha; exact lays_be64 d
  | timetag t => cases ha; exact lays_be64 t
  | midi e => cases ha; exact lays_midi e
  | symbol s => cases ha; exact lays_string s.chars
  | char c => cases ha; exact lays_be32 (c.signExtend 32)
  | rgba r g b a => cases ha; exact lays_rgba r g b a

lemma lays_varlist (hI : Kept I) (params : List Param) :
    Lays I (writerArgVarlist (format params) (arguments params)) (params.flatMap Param.cells) := by
  induction params with
  | nil => exact lays_pure
  | cons p params ih =>
    rw [List.flatMap_cons]
    cases ha : p.arg with
    | none =>
      have hcells : p.cells = [] := by cases p <;> simp_all [Param.arg, Param.cells]
      rw [hcells, List.nil_append]
      have harguments : arguments (p :: params) = arguments params := by
        simp [arguments, ha]
      rw [harguments]
      cases p <;> simp [Param.arg] at ha <;> exact ih
    | some a =>
      have harguments : arguments (p :: params) = a :: arguments params := by
        simp [arguments, ha]
      have hstep : writerArgVarlist (format (p :: params)) (a :: arguments params) =
          (writerArg p.type a >>= fun _ => writerArgVarlist (format params) (arguments params)) := by
        rw [format, List.map_cons, writerArgVarlist, OscType.ofChar_toChar]
        cases p <;> first | rfl | simp [Param.arg] at ha
      rw [harguments, hstep]
      exact (lays_param p ha).seq hI ih

lemma format_noNul (params : List Param) : (0 : Byte) ∉ comma :: format params := by
  rintro (_ | ⟨_, h⟩)
  obtain ⟨p, -, hp⟩ := List.mem_map.mp h
  exact p.type.toChar_ne_zero hp

def typeString (params : List Param) : CString := ⟨comma :: format params, format_noNul params⟩

def messageCells (path : CString) (params : List Param) : Cells :=
  path.encode.map some ++ ((typeString params).encode.map some ++ params.flatMap Param.cells)

lemma lays_message (hI : Kept I) (path : CString) (params : List Param) :
    Lays I (writerMessageVarlist path.chars (format params) (arguments params))
      (messageCells path params) :=
  (lays_string path.chars).seq hI ((lays_format (format params)).seq hI (lays_varlist hI params))

end Writing

/-- What is stored for an argument shows its value in the memory. -/
def Param.Shows (m : Memory) : Param → Option VaOut → Prop
  | .int32 i, out => out = some (.int32 i)
  | .float f, out => out = some (.float f)
  | .string s, out => ∃ p, out = some (.string p) ∧ Holds m p (s.chars ++ [0])
  | .blob b, out => ∃ p, out = some (.blob (BitVec.ofNat 32 b.bytes.length) p) ∧ Holds m p b.bytes
  | .true, out | .false, out | .nil, out | .impulse, out => out = none
  | .int64 h, out => out = some (.int64 h)
  | .double d, out => out = some (.double d)
  | .timetag t, out => out = some (.timetag t)
  | .midi e, out => ∃ p, out = some (.midi p) ∧ Holds m p e.bytes
  | .symbol s, out => ∃ p, out = some (.symbol p) ∧ Holds m p (s.chars ++ [0])
  | .char c, out => out = some (.char c)
  | .rgba r g b a, out => out = some (.rgba [r, g, b, a])

/-- The values from left to right, where there are any. -/
def Shown (m : Memory) : List Param → List VaOut → Prop
  | [], outs => outs = []
  | p :: params, outs => ∃ out rest, outs = out.toList ++ rest ∧ p.Shows m out ∧ Shown m params rest

section Reading
variable {unsequenced : OscType → Get (Option VaOut)}
variable {m m₀ : Memory} {r : Reader} {a : Addr} {ys : List Byte}

lemma readArg_of {α : Type} {x : Get α} {f : α → VaOut} {v : α} {r' : Reader}
    (h : x m r = .ok (some v, r')) : (do return some (f (← x)) : Get (Option VaOut)) m r =
      .ok (some (some (f v)), r') := Get.bind_of_some h

/-- What was written for an argument is read back as it. -/
lemma reads_param (p : Param) (hp : p.Sequenced) (h : Over m r (filled m₀ a p.cells ++ ys)) :
    ∃ out, readerArg unsequenced p.type m r =
        .ok (some out, r.advance (BitVec.ofNat 64 p.cells.length)) ∧
      p.Shows m out := by
  cases p with
  | int32 i =>
    rw [Param.cells, filled_full] at h
    exact ⟨_, readArg_of (int32_over h), rfl⟩
  | float f =>
    rw [Param.cells, filled_full] at h
    exact ⟨_, readArg_of (int32_over h), rfl⟩
  | string s =>
    rw [Param.cells, filled_full] at h
    rw [Param.cells, List.length_map]
    exact ⟨_, readArg_of (getString_over s h), r.ptr, rfl, s.holds h.holds⟩
  | blob b => exact hp.elim
  | true | false | nil | impulse =>
    refine ⟨none, ?_, rfl⟩
    simp [Param.type, Param.cells, readerArg, Get.pure_eq, Reader.advance]
  | int64 i =>
    rw [Param.cells, filled_full] at h
    exact ⟨_, readArg_of (int64_over h), rfl⟩
  | double d =>
    rw [Param.cells, filled_full] at h
    exact ⟨_, readArg_of (int64_over h), rfl⟩
  | timetag t =>
    rw [Param.cells, filled_full] at h
    exact ⟨_, readArg_of (int64_over h), rfl⟩
  | midi e =>
    have hlen := midiCells_length e
    have hfour : (filled m₀ a (midiCells e)).length = 4 := by rw [filled_length, hlen]
    rw [Param.cells] at h
    have hneed : readerOverflow r 4 = false := h.need (by rw [List.length_append, hfour]; simp)
    have hmidi : readerGetMidi m r = .ok (some r.ptr, r.advance 4) := by
      rw [readerGetMidi, Get.bind_of_some (Get.need_eq hneed), Get.bind_of_some Get.cursor_eq,
        Get.bind_of_some Get.skip_eq, Get.pure_eq]
    rw [Param.cells, hlen]
    refine ⟨_, readArg_of hmidi, r.ptr, rfl, ?_⟩
    rw [midiCells, filled_append, filled_full, List.append_assoc] at h
    exact (holds_append.mp h.holds).1
  | symbol s =>
    rw [Param.cells, filled_full] at h
    rw [Param.cells, List.length_map]
    exact ⟨_, readArg_of (getString_over s h), r.ptr, rfl, s.holds h.holds⟩
  | char c =>
    rw [Param.cells, filled_full] at h
    refine ⟨_, readArg_of (getChar_over h), ?_⟩
    have hlow : (c.signExtend 32).setWidth 8 = c := by
      ext i hi
      simp [BitVec.getLsbD_signExtend, hi]
      omega
    rw [hlow]
    rfl
  | rgba red green blue alpha => exact hp.elim

lemma reads_varlist (params : List Param) (hparams : ∀ p ∈ params, p.Sequenced)
    (h : Over m r (filled m₀ a (params.flatMap Param.cells) ++ ys)) :
    ∃ outs, readerArgVarlist unsequenced (format params) m r =
        .ok (some outs, r.advance (BitVec.ofNat 64 (params.flatMap Param.cells).length)) ∧
      Shown m params outs := by
  induction params generalizing r a with
  | nil =>
    refine ⟨[], ?_, rfl⟩
    simp [format, readerArgVarlist, Get.pure_eq, Reader.advance]
  | cons p params ih =>
    rw [List.flatMap_cons, filled_append, List.append_assoc] at h
    obtain ⟨hp, hrest⟩ := List.forall_mem_cons.mp hparams
    obtain ⟨out, hout, hshows⟩ := reads_param p hp h
    have hnext := h.drop_length
    rw [filled_length] at hnext
    obtain ⟨outs, houts, hshown⟩ := ih hrest hnext
    refine ⟨out.toList ++ outs, ?_, out, outs, rfl, hshows, hshown⟩
    have hchar : readerArgChar unsequenced p.type.toChar = readerArg unsequenced p.type := by
      rw [readerArgChar, OscType.ofChar_toChar]
    rw [format, List.map_cons, readerArgVarlist, hchar, Get.bind_of_some hout, ← format,
      Get.bind_of_some houts, Get.pure_eq, List.flatMap_cons, List.length_append, BitVec.ofNat_add]
    simp only [Reader.advance, BitVec.add_assoc]

/-- A caller's reads of a message of which it knows the format. -/
def readMessage (unsequenced : OscType → Get (Option VaOut)) (fmt : List Byte) :
    Get (Addr × Addr × List VaOut) := do
  let path ← readerGetString
  let types ← readerGetString
  let outs ← readerArgVarlist unsequenced fmt
  pure (path, types, outs)

lemma reads_message (path : CString) (params : List Param) (hparams : ∀ p ∈ params, p.Sequenced)
    (h : Over m r (filled m₀ a (messageCells path params))) :
    ∃ p types outs, readMessage unsequenced (format params) m r = .ok (some (p, types, outs),
        r.advance (BitVec.ofNat 64 (messageCells path params).length)) ∧
      Holds m p (path.chars ++ [0]) ∧ Holds m types (comma :: format params ++ [0]) ∧
      Shown m params outs := by
  rw [messageCells, filled_append, filled_append, filled_full, filled_full] at h
  have htypes := h.drop_length
  have hargs := htypes.drop_length
  rw [← List.append_nil (filled _ _ _)] at hargs
  obtain ⟨outs, houts, hshown⟩ := reads_varlist params hparams hargs
  refine ⟨_, _, outs, ?_, path.holds h.holds, (typeString params).holds htypes.holds, hshown⟩
  rw [readMessage, Get.bind_of_some (getString_over path h),
    Get.bind_of_some (getString_over (typeString params) htypes), Get.bind_of_some houts, Get.pure_eq,
    messageCells]
  simp only [Reader.advance, BitVec.add_assoc, List.length_append, List.length_map, BitVec.ofNat_add]

end Reading

/-- The round trip of a message. It is written exactly where the buffer is longer than it, and
inside the buffer. From what was written, over whatever the buffer held before, the same
format reads the same path and the same arguments, and nothing is left, if no read takes more
than one `va_arg()`. -/
theorem varlist_law (unsequenced : OscType → Get (Option VaOut)) (path : CString)
    (params : List Param) (m : Memory) (buf size : Addr) (hmapped : Mapped m buf size.toNat)
    (hbelow : buf.toNat + size.toNat + (messageCells path params).length + 16 ≤ 2 ^ 64) :
    ∃ result m' w',
      writerMessageVarlist path.chars (format params) (arguments params) m
        (writerInitialize buf size) = .ok (result, m', w') ∧
      (result.isSome ↔ (messageCells path params).length < size.toNat) ∧
      (∀ p, size.toNat ≤ offset buf p → m' p = m p) ∧
      (result.isSome → ∃ len, writerFinalize w' = (some buf, len) ∧
        len.toNat = (messageCells path params).length ∧
        Holds m' buf (filled m buf (messageCells path params)) ∧
        ((∀ p ∈ params, p.Sequenced) → ∃ p types outs r,
          readMessage unsequenced (format params) m' (readerInitialize buf len) =
            .ok (some (p, types, outs), r) ∧
          Holds m' p (path.chars ++ [0]) ∧ Holds m' types (comma :: format params ++ [0]) ∧
          Shown m' params outs ∧ r.ptr = r.endPtr)) := by
  have hkept : Kept fun _ _ => True := fun _ _ _ _ _ _ => trivial
  have hpos : 0 < (messageCells path params).length := by
    have hle := le_padLen (path.chars.length + 1)
    simp [messageCells]
    omega
  obtain ⟨result, m', w', hrun, hdone, houtside, hwritten⟩ :=
    (lays_message hkept path params).outcome trivial hpos hmapped hbelow
  refine ⟨result, m', w', hrun, hdone, houtside, fun hsome => ?_⟩
  obtain ⟨hfinal, rfl⟩ := hwritten hsome
  have hfits := hdone.mp hsome
  have hholds : Holds (put m buf (messageCells path params)) buf
      (filled m buf (messageCells path params)) :=
    holds_put (fun i hi => hmapped i (by omega)) (by omega)
  have hlen : (BitVec.ofNat 64 (messageCells path params).length).toNat =
      (messageCells path params).length := by
    rw [BitVec.toNat_ofNat, Nat.mod_eq_of_lt (by omega)]
  refine ⟨_, hfinal, hlen, hholds, fun hparams => ?_⟩
  have hover := over_readerInit ⟨hholds, by rw [filled_length]; omega⟩
  rw [filled_length] at hover
  obtain ⟨p, types, outs, hread, hpath, htypes, hshown⟩ := reads_message path params hparams hover
  exact ⟨p, types, outs, _, hread, hpath, htypes, hshown, rfl⟩

/-- One argument that leaves bytes of the buffer as they are, and others. -/
def mixedParams : List Param :=
  [.int32 7, .true, .string ⟨[0x78], by decide⟩, .double 0x3ff0000000000000, .char 0xe9,
    .midi ⟨[0x90, 0x3c], by decide⟩, .timetag 1]

lemma mixed_length : (messageCells ⟨[0x2f], by decide⟩ mixedParams).length = 48 := by decide

theorem varlist_law_mixed : ∃ m' w' len p types outs r,
    writerMessageVarlist [0x2f] (format mixedParams) (arguments mixedParams) (fun _ => some 0xff)
        (writerInitialize 0x1000 49) = .ok (some (), m', w') ∧
      writerFinalize w' = (some 0x1000, len) ∧
      readMessage (fun _ => pure none) (format mixedParams) m' (readerInitialize 0x1000 len) =
        .ok (some (p, types, outs), r) ∧
      Shown m' mixedParams outs := by
  obtain ⟨result, m', w', hrun, hdone, -, hread⟩ := varlist_law (fun _ => pure none)
    ⟨[0x2f], by decide⟩ mixedParams (fun _ => some 0xff) 0x1000 49 (fun _ _ => rfl)
    (by rw [mixed_length]; decide)
  have hsome : result.isSome := hdone.mpr (by rw [mixed_length]; decide)
  obtain ⟨len, hfinal, -, -, hback⟩ := hread hsome
  obtain ⟨p, types, outs, r, hback, -, -, hshown, -⟩ :=
    hback (by simp [mixedParams, Param.Sequenced])
  obtain ⟨done, rfl⟩ := Option.isSome_iff_exists.mp hsome
  exact ⟨m', w', len, p, types, outs, r, hrun, hfinal, hback, hshown⟩

end Osc2FtdiDmx.MessageWriting
