import Osc2FtdiDmx.MessageEncoding
import Osc2FtdiDmx.OscWriter

/-! What each function of the writer lays into the buffer, and that it stays inside the
buffer where it is short of room. -/
namespace Osc2FtdiDmx.WriterSpecs
open BytesEndian OscMemory OscReader ReaderSpecs MessageEncoding MemoryStores OscWriter Put

/-- The buffer is mapped up to its end, and `n` bytes from the cursor on stay clear of the
top of the address space. -/
structure Ready (m : Memory) (w : Writer) (n : ℕ) : Prop where
  mapped : ∀ i, w.ptr.toNat + i < w.endPtr.toNat → (m (w.ptr + BitVec.ofNat 64 i)).isSome
  below : w.ptr.toNat + n + 16 ≤ 2 ^ 64

/-- The cells end before the last byte of the buffer; no cells always do. -/
def Room (w : Writer) (cs : Cells) : Prop :=
  cs = [] ∨ w.ptr.toNat + cs.length < w.endPtr.toNat

/-- The writing fails, and what was stored until then lies inside the buffer. -/
def Stuck {α : Type} (x : Put α) (m : Memory) (w : Writer) : Prop :=
  ∃ ds w', Room w ds ∧ x m w = .ok (none, put m w.ptr ds, w')

section Specs
variable (I : Memory → Writer → Prop)

/-- A condition that no store into the rest of the buffer ends. -/
def Kept : Prop := ∀ m w (cs : Cells), I m w → Ready m w cs.length → Room w cs →
  I (put m w.ptr cs) (w.advance (BitVec.ofNat 64 cs.length))

/-- Where there is room the cells are laid and passed over. -/
structure Lays (x : Put Unit) (cs : Cells) : Prop where
  fits : ∀ m w, I m w → Ready m w cs.length → Room w cs →
    x m w = .ok (some (), put m w.ptr cs, w.advance (BitVec.ofNat 64 cs.length))
  short : ∀ m w, I m w → Ready m w cs.length → ¬ Room w cs → Stuck x m w

/-- The writing fails after at most `n` bytes, however much room there is. -/
def Fails (x : Put Unit) (n : ℕ) : Prop := ∀ m w, I m w → Ready m w n → Stuck x m w

end Specs

variable {I : Memory → Writer → Prop} {m : Memory} {w : Writer} {x y : Put Unit} {cs ds : Cells}
  {n k : ℕ} {α β : Type}

lemma Ready.mono (h : Ready m w n) (hk : k ≤ n) : Ready m w k := by
  have hbelow := h.below
  exact ⟨h.mapped, by omega⟩

lemma Ready.ptr_toNat (h : Ready m w n) (hk : k ≤ n) :
    (w.ptr + BitVec.ofNat 64 k).toNat = w.ptr.toNat + k := by
  have hbelow := h.below
  rw [BitVec.toNat_add, BitVec.toNat_ofNat]
  omega

lemma Ready.mapped_cells (h : Ready m w n) (hroom : Room w cs) : Mapped m w.ptr cs.length := by
  intro i hi
  obtain rfl | hlt := hroom
  · cases hi
  · exact h.mapped i (by omega)

lemma Ready.next (h : Ready m w n) (hn : cs.length + k ≤ n) :
    Ready (put m w.ptr cs) (w.advance (BitVec.ofNat 64 cs.length)) k := by
  have hbelow := h.below
  have hptr := h.ptr_toNat (k := cs.length) (by omega)
  refine ⟨fun i hi => ?_, ?_⟩
  · simp only [Writer.advance] at hi ⊢
    rw [hptr] at hi
    rw [BitVec.add_assoc, ← BitVec.ofNat_add, put, Option.isSome_or,
      h.mapped (cs.length + i) (by omega), Bool.or_true]
  · simp only [Writer.advance]
    omega

lemma Ready.overflow (h : Ready m w n) {size : Addr} (hsize : size.toNat ≤ n) :
    writerOverflow w size = true ↔ w.endPtr.toNat ≤ w.ptr.toNat + size.toNat := by
  have hbelow := h.below
  rw [writerOverflow, decide_eq_true_eq, BitVec.le_def, BitVec.toNat_add,
    Nat.mod_eq_of_lt (by omega)]

lemma room_append (h : w.ptr.toNat + cs.length < 2 ^ 64) :
    Room w (cs ++ ds) ↔ Room w cs ∧ Room (w.advance (BitVec.ofNat 64 cs.length)) ds := by
  have hptr : (w.ptr + BitVec.ofNat 64 cs.length).toNat = w.ptr.toNat + cs.length := by
    rw [BitVec.toNat_add, BitVec.toNat_ofNat]
    omega
  simp only [Room, Writer.advance, hptr, List.length_append, ← List.length_eq_zero_iff]
  omega

lemma Stuck.bind {x : Put α} {f : α → Put β} (h : Stuck x m w) : Stuck (x >>= f) m w := by
  obtain ⟨ds, w', hds, hrun⟩ := h
  exact ⟨ds, w', hds, bind_of_none hrun⟩

/-- Failing behind cells that were laid. -/
lemma Stuck.behind {x : Put α} {f : α → Put β} {a : α} (h : Ready m w cs.length) (hroom : Room w cs)
    (hx : x m w = .ok (some a, put m w.ptr cs, w.advance (BitVec.ofNat 64 cs.length)))
    (hf : Stuck (f a) (put m w.ptr cs) (w.advance (BitVec.ofNat 64 cs.length))) :
    Stuck (x >>= f) m w := by
  obtain ⟨ds, w', hds, hrun⟩ := hf
  have hbelow := h.below
  have hboth : Room w (cs ++ ds) := (room_append (by omega)).mpr ⟨hroom, hds⟩
  have hlen : cs.length + ds.length ≤ 2 ^ 64 := by
    have hend := w.endPtr.isLt
    rw [← List.length_append]
    obtain hnil | hlt := hboth
    · simp [hnil]
    · omega
  refine ⟨cs ++ ds, w', hboth, ?_⟩
  rw [bind_of_some hx, hrun, ← put_append m w.ptr cs ds hlen]
  rfl

/-- A write that is checked at its start. -/
lemma lays_need {size : Addr} (hsize : cs.length + 16 ≤ 2 ^ 64 → size.toNat = cs.length) (hcs : cs ≠ [])
    (hx : ∀ m w, Ready m w cs.length → Room w cs →
      x m w = .ok (some (), put m w.ptr cs, w.advance (BitVec.ofNat 64 cs.length))) :
    Lays I (need size >>= fun _ => x) cs where
  fits m w hI h hroom := by
    have hbelow := h.below
    have hlen := hsize (by omega)
    have hno : writerOverflow w size = false := by
      rw [Bool.eq_false_iff, ne_eq, h.overflow (by omega)]
      have hlt := hroom.resolve_left hcs
      omega
    rw [bind_of_some (need_eq hno)]
    exact hx m w h hroom
  short m w hI h hroom := by
    have hbelow := h.below
    have hlen := hsize (by omega)
    have hyes : writerOverflow w size = true := by
      rw [h.overflow (by omega)]
      simp only [Room, hcs, false_or, not_lt] at hroom
      omega
    exact ⟨[], w, .inl rfl, by rw [bind_of_none (need_overflow hyes), put_nil]⟩

lemma lays_pure : Lays I (pure ()) [] where
  fits m w _ h _ := by
    rw [put_nil, Writer.advance, List.length_nil, BitVec.add_zero]
    rfl
  short m w hI h hroom := absurd (.inl rfl) hroom

/-- One write behind the other. -/
lemma Lays.seq (hI : Kept I) (hx : Lays I x cs) (hy : Lays I y ds) :
    Lays I (x >>= fun _ => y) (cs ++ ds) where
  fits m w hm h hroom := by
    rw [List.length_append] at h
    have hbelow := h.below
    obtain ⟨hfirst, hsecond⟩ := (room_append (by omega)).mp hroom
    have hstart : Ready m w cs.length := h.mono (by omega)
    rw [bind_of_some (hx.fits m w hm hstart hfirst),
      hy.fits _ _ (hI m w cs hm hstart hfirst) (h.next le_rfl) hsecond]
    simp only [Writer.advance, put_append m w.ptr cs ds (by omega), List.length_append,
      BitVec.ofNat_add, BitVec.add_assoc]
  short m w hm h hroom := by
    rw [List.length_append] at h
    have hbelow := h.below
    rw [room_append (by omega)] at hroom
    have hstart : Ready m w cs.length := h.mono (by omega)
    by_cases hfirst : Room w cs
    · exact Stuck.behind hstart hfirst (hx.fits m w hm hstart hfirst)
        (hy.short _ _ (hI m w cs hm hstart hfirst) (h.next le_rfl) fun hds => hroom ⟨hfirst, hds⟩)
    · exact (hx.short m w hm hstart hfirst).bind

lemma Fails.bind {f : Unit → Put Unit} (hx : Fails I x n) : Fails I (x >>= f) n :=
  fun m w hm h => (hx m w hm h).bind

/-- A write that fails behind one that is done. -/
lemma Lays.seq_fails (hI : Kept I) (hx : Lays I x cs) (hy : Fails I y n) :
    Fails I (x >>= fun _ => y) (cs.length + n) := by
  intro m w hm h
  have hstart : Ready m w cs.length := h.mono (by omega)
  by_cases hfirst : Room w cs
  · exact Stuck.behind hstart hfirst (hx.fits m w hm hstart hfirst)
      (hy _ _ (hI m w cs hm hstart hfirst) (h.next le_rfl))
  · exact (hx.short m w hm hstart hfirst).bind

lemma Lays.congr (h : ∀ m w, I m w → x m w = y m w) (hy : Lays I y cs) : Lays I x cs where
  fits m w hm hw hroom := by
    rw [h m w hm]
    exact hy.fits m w hm hw hroom
  short m w hm hw hroom := by
    rw [Stuck, h m w hm]
    exact hy.short m w hm hw hroom

lemma Fails.congr (h : ∀ m w, I m w → x m w = y m w) (hy : Fails I y n) : Fails I x n := by
  intro m w hm hw
  rw [Stuck, h m w hm]
  exact hy m w hm hw

lemma Fails.mono (h : Fails I x n) (hn : n ≤ k) : Fails I x k :=
  fun m w hm hw => h m w hm (hw.mono hn)

lemma write_cells {p : Addr} {bs : List Byte} (hmap : Mapped m p bs.length)
    (hlen : bs.length ≤ 2 ^ 64) :
    write p bs m w = .ok (some (), put m p (bs.map some), w) := by
  rw [write, stores_put hmap hlen]
  rfl

/-- A field of fixed size. -/
lemma lays_field {size : Addr} {bs : List Byte} (hsize : size.toNat = bs.length) (hbs : bs ≠ []) :
    Lays I (do need size; write (← cursor) bs; skip size) (bs.map some) := by
  have hofNat : BitVec.ofNat 64 bs.length = size := by
    rw [← hsize, BitVec.ofNat_toNat, BitVec.setWidth_eq]
  refine lays_need (fun _ => by simpa using hsize) (by simpa using hbs) fun m w h hroom => ?_
  have hmap := h.mapped_cells hroom
  rw [List.length_map] at hmap h
  have hlen := h.below
  rw [bind_of_some cursor_eq, bind_of_some (write_cells hmap (by omega)), List.length_map, hofNat]
  rfl

lemma lays_be32 (v : BitVec 32) : Lays I (writerHtobe32 v) ((bytesBE 4 v.toNat).map some) :=
  lays_field (by simp) (List.ne_nil_of_length_pos (by simp))

lemma lays_be64 (v : BitVec 64) : Lays I (writerHtobe64 v) ((bytesBE 8 v.toNat).map some) :=
  lays_field (by simp) (List.ne_nil_of_length_pos (by simp))

lemma lays_rgba (r g b a : Byte) : Lays I (writerAddRgba r g b a) ([r, g, b, a].map some) :=
  lays_field rfl (by simp)

lemma write_then {α : Type} {f : Unit → Put α} {p : Addr} {bs : List Byte}
    (hmap : Mapped m p bs.length) (hlen : bs.length ≤ 2 ^ 64) :
    (write p bs >>= f) m w = f () (put m p (bs.map some)) w :=
  bind_of_some (write_cells hmap hlen)

/-- The last word of a field of `k` bytes is blanked before the field is stored. -/
lemma blank_then {α : Type} {f : Unit → Put α} {k : ℕ} {size : Addr} (hsize : size.toNat = k)
    (h4 : 4 ≤ k) (hmap : Mapped m w.ptr k) (hk : k ≤ 2 ^ 64) :
    (write (w.ptr + size - 4) [0, 0, 0, 0] >>= f) m w =
      f () (put m w.ptr (List.replicate (k - 4) none ++ [0, 0, 0, 0].map some)) w := by
  have hblank : w.ptr + size - 4 = w.ptr + BitVec.ofNat 64 (k - 4) := by
    bv_omega
  have hmapped : Mapped m (w.ptr + BitVec.ofNat 64 (k - 4)) [0, 0, 0, (0 : Byte)].length := by
    intro i hi
    rw [List.length_cons, List.length_cons, List.length_cons, List.length_singleton] at hi
    rw [BitVec.add_assoc, ← BitVec.ofNat_add]
    exact hmap (k - 4 + i) (by omega)
  have hcells := put_append m w.ptr (List.replicate (k - 4) none) ([0, 0, 0, 0].map some)
    (by simp; omega)
  rw [put_none, List.length_replicate] at hcells
  rw [hblank, write_then hmapped (by simp), hcells]

lemma padLen_bounds {n : ℕ} (hn : 0 < n) : 4 ≤ padLen n ∧ n ≤ padLen n ∧ padLen n ≤ n + 3 := by
  rw [padLen]
  omega

/-- A string is laid with its terminator, and padded with zeros. -/
lemma lays_string (s : List Byte) : Lays I (writerAddString s) ((padded (s ++ [0])).map some) := by
  have hlen : ((padded (s ++ [0])).map some).length = padLen (s.length + 1) := by simp
  obtain ⟨h4, hle, hup⟩ := padLen_bounds (n := s.length + 1) (by omega)
  have hsize (h : padLen (s.length + 1) + 16 ≤ 2 ^ 64) :
      (paddedSize (BitVec.ofNat 64 s.length + 1)).toNat = padLen (s.length + 1) :=
    strlen_padded (by omega)
  refine lays_need (fun h => ?_) (List.ne_nil_of_length_pos (by omega)) fun m w h hroom => ?_
  · rw [hlen] at h ⊢
    exact hsize h
  · have hmap := h.mapped_cells hroom
    rw [hlen] at h hmap
    have hbelow := h.below
    have hchars : (s ++ [0]).length = s.length + 1 := by simp
    rw [bind_of_some cursor_eq, blank_then (hsize (by omega)) h4 hmap (by omega),
      write_then (fun i hi => mapped_put _ _ hmap i (by omega)) (by omega),
      put_blank h4 (by omega) (by omega) (by omega), hlen, padded, hchars]
    have hofNat : BitVec.ofNat 64 (padLen (s.length + 1)) =
        paddedSize (BitVec.ofNat 64 s.length + 1) := by
      rw [← hsize (by omega), BitVec.ofNat_toNat, BitVec.setWidth_eq]
    rw [hofNat]
    rfl

/-- So is the format, behind its comma. -/
lemma lays_format (fmt : List Byte) :
    Lays I (writerAddFormat fmt) ((padded (comma :: fmt ++ [0])).map some) := by
  have hlen : ((padded (comma :: fmt ++ [0])).map some).length = padLen (fmt.length + 2) := by simp
  obtain ⟨h4, hle, hup⟩ := padLen_bounds (n := fmt.length + 2) (by omega)
  have hsize (h : padLen (fmt.length + 2) + 16 ≤ 2 ^ 64) :
      (paddedSize (BitVec.ofNat 64 fmt.length + 1 + 1)).toNat = padLen (fmt.length + 2) := by
    have hnext : BitVec.ofNat 64 fmt.length + 1 = BitVec.ofNat 64 (fmt.length + 1) := by
      rw [BitVec.ofNat_add]
      rfl
    rw [hnext, strlen_padded (by omega)]
  refine lays_need (fun h => ?_) (List.ne_nil_of_length_pos (by omega)) fun m w h hroom => ?_
  · rw [hlen] at h ⊢
    exact hsize h
  · have hmap := h.mapped_cells hroom
    rw [hlen] at h hmap
    have hbelow := h.below
    have hchars : (comma :: fmt ++ [0]).length = fmt.length + 2 := by simp
    have htext : (fmt ++ [0]).length = fmt.length + 1 := by simp
    have hjoin (m : Memory) : put (put m w.ptr ([comma].map some)) (w.ptr + 1) ((fmt ++ [0]).map some) =
        put m w.ptr ((comma :: fmt ++ [0]).map some) := by
      have happend := put_append m w.ptr ([comma].map some) ((fmt ++ [0]).map some)
        (by simp; omega)
      rwa [← List.map_append] at happend
    have hmapped : Mapped m (w.ptr + 1) (fmt.length + 1) := by
      intro i hi
      rw [add_ofNat_succ]
      exact hmap (i + 1) (by omega)
    rw [bind_of_some cursor_eq, blank_then (hsize (by omega)) h4 hmap (by omega),
      write_then (fun i hi => mapped_put _ _ hmap i (by simp at hi; omega)) (by simp),
      write_then (fun i hi => mapped_put _ _ (mapped_put _ _ hmapped) i (by omega)) (by omega),
      hjoin, put_blank h4 (by omega) (by omega) (by omega), hlen, padded, hchars]
    have hofNat : BitVec.ofNat 64 (padLen (fmt.length + 2)) =
        1 + (paddedSize (BitVec.ofNat 64 fmt.length + 1 + 1) - 1) := by
      rw [← hsize (by omega), BitVec.ofNat_toNat, BitVec.setWidth_eq]
      bv_omega
    rw [hofNat]
    rfl

/-- The cells of a blob; those of its padding are empty. -/
def blobCells (b : Blob) : Cells :=
  (bytesBE 4 b.bytes.length).map some ++
    (b.bytes.map some ++ List.replicate (padLen b.bytes.length - b.bytes.length) none)

lemma blobCells_length (b : Blob) : (blobCells b).length = 4 + padLen b.bytes.length := by
  have hle := le_padLen b.bytes.length
  simp [blobCells]
  omega

lemma copy_eq {p : Addr} {bs : List Byte} (hfits : bs.length < 2 ^ 31) :
    copy p bs (BitVec.ofNat 32 bs.length) = write p bs := by
  have hlen : (BitVec.ofNat 32 bs.length).toNat = bs.length := by
    rw [BitVec.toNat_ofNat, Nat.mod_eq_of_lt (by omega)]
  have hsize : ((BitVec.ofNat 32 bs.length).signExtend 64).toNat = bs.length := by
    rw [signExtend_toNat (by omega), hlen]
  rw [copy, hsize, if_pos le_rfl, List.take_length]

lemma lays_blob (b : Blob) :
    Lays I (writerAddBlob (BitVec.ofNat 32 b.bytes.length) b.bytes) (blobCells b) := by
  have hfits := b.fits
  have hcells := blobCells_length b
  have hle := le_padLen b.bytes.length
  have hup : padLen b.bytes.length ≤ b.bytes.length + 3 := by
    rw [padLen]
    omega
  have hlen : (BitVec.ofNat 32 b.bytes.length).toNat = b.bytes.length := by
    rw [BitVec.toNat_ofNat, Nat.mod_eq_of_lt (by omega)]
  have hsize : ((BitVec.ofNat 32 b.bytes.length).signExtend 64).toNat = b.bytes.length := by
    rw [signExtend_toNat (by omega), hlen]
  have hpad : (paddedSize ((BitVec.ofNat 32 b.bytes.length).signExtend 64)).toNat =
      padLen b.bytes.length := by
    rw [paddedSize_toNat (by omega), hsize]
  rw [writerAddBlob, writerAddBlobInline, bind_bind]
  refine lays_need (fun _ => ?_) (List.ne_nil_of_length_pos (by omega)) fun m w h hroom => ?_
  · rw [hcells, BitVec.toNat_add, hpad]
    change (4 + _) % _ = _
    omega
  · have hmap := h.mapped_cells hroom
    rw [hcells] at h hmap
    have hbelow := h.below
    have hlt := hroom.resolve_left (List.ne_nil_of_length_pos (by omega))
    rw [hcells] at hlt
    have hfield := (lays_be32 (I := fun _ _ => True) (BitVec.ofNat 32 b.bytes.length)).fits m w trivial
      (h.mono (by simp))
      (.inr (by simp; omega))
    rw [hlen] at hfield
    have hbody : Mapped (put m w.ptr ((bytesBE 4 b.bytes.length).map some))
        (w.ptr + BitVec.ofNat 64 ((bytesBE 4 b.bytes.length).map some).length) b.bytes.length := by
      intro i hi
      rw [BitVec.add_assoc, ← BitVec.ofNat_add]
      exact mapped_put _ _ hmap _ (by simp; omega)
    have hadvance : BitVec.ofNat 64 ((bytesBE 4 b.bytes.length).map some).length +
        paddedSize ((BitVec.ofNat 32 b.bytes.length).signExtend 64) =
          BitVec.ofNat 64 (4 + padLen b.bytes.length) := by
      rw [BitVec.ofNat_add, ← hpad, BitVec.ofNat_toNat, BitVec.setWidth_eq]
      simp
    rw [bind_bind, writerAddInt32, bind_of_some hfield, bind_bind, bind_of_some cursor_eq,
      bind_bind, bind_of_some skip_eq, bind_of_some (pure_eq _), copy_eq hfits]
    simp only [Writer.advance]
    rw [write_cells hbody (by omega), put_append _ _ _ _ (by simp; omega), hcells, BitVec.add_assoc,
      hadvance, blobCells, ← List.append_assoc, put_append_none _ _ (by simp; omega)]

/-- The bytes of one MIDI event; a port byte and up to three others. -/
structure MidiBytes where
  bytes : List Byte
  fits : bytes.length ≤ 4

def midiCells (e : MidiBytes) : Cells :=
  e.bytes.map some ++ List.replicate (4 - e.bytes.length) none

lemma midiCells_length (e : MidiBytes) : (midiCells e).length = 4 := by
  have hfits := e.fits
  simp [midiCells]
  omega

lemma lays_midi (e : MidiBytes) :
    Lays I (writerAddMidi (BitVec.ofNat 32 e.bytes.length) e.bytes) (midiCells e) := by
  have hfits := e.fits
  have hlen : (BitVec.ofNat 32 e.bytes.length).toNat = e.bytes.length := by
    rw [BitVec.toNat_ofNat, Nat.mod_eq_of_lt (by omega)]
  have hsmall : ¬ 4 < (BitVec.ofNat 32 e.bytes.length).toInt := by
    rw [BitVec.toInt_eq_toNat_of_lt (by omega), hlen]
    omega
  rw [writerAddMidi, writerAddMidiInline, if_neg hsmall, bind_bind]
  refine lays_need (fun _ => (midiCells_length e).symm)
    (List.ne_nil_of_length_pos (by rw [midiCells_length]; omega)) fun m w h hroom => ?_
  have hmap := h.mapped_cells hroom
  rw [midiCells_length] at hmap
  rw [bind_bind, bind_of_some cursor_eq, bind_bind, bind_of_some skip_eq, bind_of_some (pure_eq _),
    copy_eq (by omega), write_cells (fun i hi => hmap i (by omega)) (by omega), midiCells_length,
    midiCells, put_append_none _ _ (by simp; omega)]
  rfl

/-- An item is its size in front of its body, which is written first. -/
def writerItem (body : Put Unit) : Put Unit := do
  let ref ← writerPushItem
  body
  writerPopItem ref

/-- A bundle is its tag and its time in front of its items. -/
def writerBundle (t : BitVec 64) (items : Put Unit) : Put Unit := do
  let ref ← writerPushBundle t
  items
  writerPopBundle ref

/-- What stands before a body whose size is known only behind it. -/
structure Opens (o : Put Addr) (hs : Cells) : Prop where
  fits : ∀ m w, Ready m w hs.length → Room w hs →
    o m w = .ok (some w.ptr, put m w.ptr hs, w.advance (BitVec.ofNat 64 hs.length))
  short : ∀ m w, Ready m w hs.length → ¬ Room w hs → Stuck o m w

lemma room_congr {ks : Cells} (h : ks.length = cs.length) : Room w ks ↔ Room w cs := by
  simp only [Room, ← List.length_eq_zero_iff, h]

section Frame
variable {o : Put Addr} {c : Addr → Put Unit} {hs ks : Cells}

/-- A body between its two ends. -/
lemma Opens.frame (hI : Kept I) (ho : Opens o hs) (hx : Lays I x cs)
    (hks : ks.length = (hs ++ cs).length)
    (hc : ∀ m w, Ready m w ks.length → Room w ks →
      c w.ptr (put m w.ptr (hs ++ cs)) (w.advance (BitVec.ofNat 64 ks.length)) =
        .ok (some (), put m w.ptr ks, w.advance (BitVec.ofNat 64 ks.length))) :
    Lays I (do let ref ← o; x; c ref) ks where
  fits m w hm h hroom := by
    have hclose := hc m w h hroom
    rw [hks, List.length_append] at h hclose
    have hbelow := h.below
    rw [room_congr hks, room_append (by omega)] at hroom
    have hstart : Ready m w hs.length := h.mono (by omega)
    rw [bind_of_some (ho.fits m w hstart hroom.1),
      bind_of_some (hx.fits _ _ (hI m w hs hm hstart hroom.1) (h.next le_rfl) hroom.2)]
    simp only [Writer.advance, put_append m w.ptr hs cs (by omega), hks, List.length_append,
      BitVec.ofNat_add, BitVec.add_assoc] at hclose ⊢
    exact hclose
  short m w hm h hroom := by
    rw [hks, List.length_append] at h
    have hbelow := h.below
    rw [room_congr hks, room_append (by omega)] at hroom
    have hstart : Ready m w hs.length := h.mono (by omega)
    by_cases hfirst : Room w hs
    · exact Stuck.behind hstart hfirst (ho.fits m w hstart hfirst) (hx.short _ _
        (hI m w hs hm hstart hfirst) (h.next le_rfl) fun hds => hroom ⟨hfirst, hds⟩).bind
    · exact (ho.short m w hstart hfirst).bind

lemma Opens.frame_fails (hI : Kept I) (ho : Opens o hs) (hx : Fails I x n) :
    Fails I (do let ref ← o; x; c ref) (hs.length + n) := by
  intro m w hm h
  have hstart : Ready m w hs.length := h.mono (by omega)
  by_cases hfirst : Room w hs
  · exact Stuck.behind hstart hfirst (ho.fits m w hstart hfirst)
      (hx _ _ (hI m w hs hm hstart hfirst) (h.next le_rfl)).bind
  · exact (ho.short m w hstart hfirst).bind

end Frame

lemma opens_item : Opens writerPushItem (List.replicate 4 none) where
  fits m w h hroom := by
    rw [List.length_replicate] at h
    have hlt := hroom.resolve_left (by simp)
    rw [List.length_replicate] at hlt
    have hneed : writerOverflow w 4 = false := by
      rw [Bool.eq_false_iff, ne_eq, h.overflow le_rfl]
      change ¬ w.endPtr.toNat ≤ w.ptr.toNat + 4
      omega
    rw [writerPushItem, bind_of_some (need_eq hneed), bind_of_some cursor_eq, bind_of_some skip_eq,
      pure_eq, put_none]
    rfl
  short m w h hroom := by
    rw [List.length_replicate] at h
    simp only [Room, List.length_replicate, List.replicate_eq_nil_iff, not_or, not_lt] at hroom
    have hneed : writerOverflow w 4 = true := (h.overflow le_rfl).mpr hroom.2
    exact ⟨[], w, .inl rfl, by rw [writerPushItem, bind_of_none (need_overflow hneed), put_nil]⟩

/-- The size of the body, as it is found behind it. -/
lemma popped_size (p k : Addr) (n : ℕ) :
    (p + BitVec.ofNat 64 (k.toNat + n) - p - k).setWidth 32 = BitVec.ofNat 32 n := by
  rw [BitVec.ofNat_add, BitVec.ofNat_toNat, BitVec.setWidth_eq]
  apply BitVec.eq_of_toNat_eq
  have hsub : p + (k + BitVec.ofNat 64 n) - p - k = BitVec.ofNat 64 n := by
    bv_omega
  rw [hsub, BitVec.toNat_setWidth, BitVec.toNat_ofNat, BitVec.toNat_ofNat]
  omega

lemma ofNat_positive (hpos : 0 < n) (hn : n < 2 ^ 31) : ¬ (BitVec.ofNat 32 n).toInt ≤ 0 := by
  have hnat : (BitVec.ofNat 32 n).toNat = n := by
    rw [BitVec.toNat_ofNat, Nat.mod_eq_of_lt (by omega)]
  rw [BitVec.toInt_eq_toNat_of_lt (by omega), hnat]
  omega

section Pop
variable {p : Addr}

lemma popItem_eq (hptr : w.ptr = p + BitVec.ofNat 64 ((4 : Addr).toNat + n)) (hpos : 0 < n)
    (hn : n < 2 ^ 31) : writerPopItem p m w = write p (bytesBE 4 n) m w := by
  have hsize := popped_size p 4 n
  rw [← hptr] at hsize
  have hnat : (BitVec.ofNat 32 n).toNat = n := by
    rw [BitVec.toNat_ofNat, Nat.mod_eq_of_lt (by omega)]
  rw [writerPopItem, bind_of_some cursor_eq, if_neg (by rw [hsize]; exact ofNat_positive hpos hn),
    hsize, hnat]

lemma popBundle_eq (hptr : w.ptr = p + BitVec.ofNat 64 ((16 : Addr).toNat + n)) (hpos : 0 < n)
    (hn : n < 2 ^ 31) : writerPopBundle p m w = .ok (some (), m, w) := by
  have hsize := popped_size p 16 n
  rw [← hptr] at hsize
  rw [writerPopBundle, bind_of_some cursor_eq, if_neg (by rw [hsize]; exact ofNat_positive hpos hn),
    pure_eq]

end Pop

lemma lays_item (hI : Kept I) (hx : Lays I x cs) (hne : cs ≠ []) (hlen : cs.length < 2 ^ 31) :
    Lays I (writerItem x) ((bytesBE 4 cs.length).map some ++ cs) := by
  have hpos := List.length_pos_iff.mpr hne
  have htotal : ((bytesBE 4 cs.length).map some ++ cs).length = (4 : Addr).toNat + cs.length := by
    rw [List.length_append, List.length_map, bytesBE_length]
    rfl
  refine opens_item.frame hI hx (by rw [htotal, List.length_append, List.length_replicate]; rfl)
    fun m w h hroom => ?_
  have hfour : (4 : Addr).toNat = 4 := rfl
  have hmap := h.mapped_cells hroom
  have hover := put_over m w.ptr [] (List.replicate 4 none) (bytesBE 4 cs.length) cs (by simp)
    (by simp; omega)
  rw [List.nil_append, List.nil_append, List.length_nil, BitVec.add_zero] at hover
  rw [htotal] at hmap ⊢
  rw [popItem_eq rfl hpos hlen,
    write_cells (fun i hi => mapped_put _ _ hmap i (by rw [bytesBE_length] at hi; omega)) (by simp),
    hover]

lemma opens_bundle (t : BitVec 64) :
    Opens (writerPushBundle t) ((bundleTag ++ bytesBE 8 t.toNat).map some) where
  fits m w h hroom := by
    have htotal : ((bundleTag ++ bytesBE 8 t.toNat).map some).length = 16 := by
      simp [bundleTag]
    have hmap := h.mapped_cells hroom
    rw [List.map_append] at hroom
    rw [htotal] at h hmap ⊢
    have hbelow := h.below
    obtain ⟨hfirst, hsecond⟩ := (room_append (by simp [bundleTag]; omega)).mp hroom
    have hneed : writerOverflow w 16 = false := by
      rw [List.map_append] at htotal
      have hlt := hroom.resolve_left (by simp [bundleTag])
      rw [Bool.eq_false_iff, ne_eq, h.overflow le_rfl]
      change ¬ w.endPtr.toNat ≤ w.ptr.toNat + 16
      omega
    have htag : Ready (put m w.ptr (bundleTag.map some)) (w.advance 8) 8 := by
      have hnext : (bundleTag.map some).length + 8 ≤ 16 := by simp [bundleTag]
      exact h.next hnext
    have htime := (lays_be64 (I := fun _ _ => True) t).fits _ _ trivial (htag.mono (by simp)) hsecond
    have happend := put_append m w.ptr (bundleTag.map some) ((bytesBE 8 t.toNat).map some)
      (by simp [bundleTag])
    rw [writerPushBundle, bind_of_some (need_eq hneed), bind_of_some cursor_eq,
      write_then (fun i hi => hmap i (by simp [bundleTag] at hi; omega)) (by simp [bundleTag]),
      bind_of_some skip_eq, writerAddTimetag, bind_of_some htime, pure_eq, List.map_append, ← happend]
    simp only [Writer.advance, BitVec.add_assoc, List.length_map, bytesBE_length]
    rfl
  short m w h hroom := by
    have htotal : ((bundleTag ++ bytesBE 8 t.toNat).map some).length = 16 := by
      simp [bundleTag]
    rw [htotal] at h
    rw [Room, htotal] at hroom
    have hneed : writerOverflow w 16 = true :=
      (h.overflow le_rfl).mpr (not_lt.mp fun hlt => hroom (.inr hlt))
    exact ⟨[], w, .inl rfl, by rw [writerPushBundle, bind_of_none (need_overflow hneed), put_nil]⟩

lemma lays_bundle (hI : Kept I) (t : BitVec 64) (hx : Lays I x cs) (hne : cs ≠ [])
    (hlen : cs.length < 2 ^ 31) :
    Lays I (writerBundle t x) ((bundleTag ++ bytesBE 8 t.toNat).map some ++ cs) := by
  have hpos := List.length_pos_iff.mpr hne
  have htotal : ((bundleTag ++ bytesBE 8 t.toNat).map some ++ cs).length =
      (16 : Addr).toNat + cs.length := by
    rw [List.length_append]
    simp [bundleTag]
  refine (opens_bundle t).frame hI hx rfl fun m w h hroom => ?_
  rw [htotal]
  exact popBundle_eq rfl hpos hlen

section Initialize
variable {buf size : Addr}

lemma start_end (h : buf.toNat + size.toNat < 2 ^ 64) :
    (writerInitialize buf size).endPtr.toNat = buf.toNat + size.toNat := by
  change (buf + size).toNat = _
  rw [BitVec.toNat_add, Nat.mod_eq_of_lt h]

lemma ready_start (hmapped : Mapped m buf size.toNat)
    (hbelow : buf.toNat + size.toNat + n + 16 ≤ 2 ^ 64) : Ready m (writerInitialize buf size) n := by
  refine ⟨fun i hi => hmapped i ?_, ?_⟩
  · rw [start_end (by omega)] at hi
    change buf.toNat + i < _ at hi
    omega
  · change buf.toNat + n + 16 ≤ _
    omega

lemma room_start (h : buf.toNat + size.toNat < 2 ^ 64) :
    Room (writerInitialize buf size) cs ↔ cs.length = 0 ∨ cs.length < size.toNat := by
  have hptr : (writerInitialize buf size).ptr.toNat = buf.toNat := rfl
  rw [Room, start_end h, List.length_eq_zero_iff, hptr, Nat.add_lt_add_iff_left]

lemma finalize_advance (hpos : 0 < n) (h : buf.toNat + n < 2 ^ 64) :
    writerFinalize ((writerInitialize buf size).advance (BitVec.ofNat 64 n)) =
      (some buf, BitVec.ofNat 64 n) := by
  have hnat : (BitVec.ofNat 64 n).toNat = n := by
    rw [BitVec.toNat_ofNat, Nat.mod_eq_of_lt (by omega)]
  have hsize : writerGetSize ((writerInitialize buf size).advance (BitVec.ofNat 64 n)) =
      BitVec.ofNat 64 n := by
    have hlt : buf < buf + BitVec.ofNat 64 n := by
      rw [BitVec.lt_def, BitVec.toNat_add, hnat, Nat.mod_eq_of_lt h]
      omega
    change (if buf < buf + BitVec.ofNat 64 n then buf + BitVec.ofNat 64 n - buf else 0) = _
    rw [if_pos hlt]
    bv_omega
  have hne : BitVec.ofNat 64 n ≠ 0 := by
    intro hzero
    rw [hzero] at hnat
    change 0 = n at hnat
    omega
  rw [writerFinalize, hsize, if_pos hne]
  rfl

lemma stuck_outside {x : Put α} (hx : Stuck x m (writerInitialize buf size))
    (h : buf.toNat + size.toNat < 2 ^ 64) :
    ∃ m' w', x m (writerInitialize buf size) = .ok (none, m', w') ∧
      ∀ p, size.toNat ≤ offset buf p → m' p = m p := by
  obtain ⟨ds, w', hds, hrun⟩ := hx
  refine ⟨_, w', hrun, fun p hp => put_of_ge ?_⟩
  rw [room_start h] at hds
  change ds.length ≤ offset buf p
  omega

/-- A whole writing, from an empty buffer on. -/
lemma Lays.outcome (hx : Lays I x cs) (hm : I m (writerInitialize buf size)) (hpos : 0 < cs.length)
    (hmapped : Mapped m buf size.toNat) (hbelow : buf.toNat + size.toNat + cs.length + 16 ≤ 2 ^ 64) :
    ∃ result m' w', x m (writerInitialize buf size) = .ok (result, m', w') ∧
      (result.isSome ↔ cs.length < size.toNat) ∧
      (∀ p, size.toNat ≤ offset buf p → m' p = m p) ∧
      (result.isSome →
        writerFinalize w' = (some buf, BitVec.ofNat 64 cs.length) ∧ m' = put m buf cs) := by
  have hready : Ready m (writerInitialize buf size) cs.length := ready_start hmapped hbelow
  have hroom : Room (writerInitialize buf size) cs ↔ cs.length < size.toNat := by
    rw [room_start (by omega)]
    omega
  by_cases hfits : cs.length < size.toNat
  · refine ⟨_, _, _, hx.fits m _ hm hready (hroom.mpr hfits), by simpa using hfits,
      fun p hp => put_of_ge ?_, fun _ => ⟨finalize_advance hpos (by omega), rfl⟩⟩
    change cs.length ≤ offset buf p
    omega
  · have hstuck := hx.short m _ hm hready fun hdone => hfits (hroom.mp hdone)
    obtain ⟨m', w', hrun, houtside⟩ := stuck_outside hstuck (by omega)
    exact ⟨none, m', w', hrun, by simpa using hfits, houtside, by simp⟩

end Initialize

end Osc2FtdiDmx.WriterSpecs
