import Osc2FtdiDmx.SlipDecode

/-! `lv2_osc_slip_encode_inline`, which encodes from the back over the bytes that it reads,
against the stuffing of the packet. -/
namespace Osc2FtdiDmx.SlipEncode
open BytesEndian ByteStuffing SlipDecode

/-- The first loop: one more for each byte, and another one for each that is escaped. -/
def estimate : List Byte → ℕ → ℕ
  | [], size => size
  | b :: packet, size =>
      estimate packet ((if b = slipEnd ∨ b = slipEsc then size + 1 else size) + 1)

/-- `memmove(dst + 1, dst, len)`. -/
def moveUp (dst : List Byte) (len : ℕ) : List Byte :=
  dst.take 1 ++ (dst.take len ++ dst.drop (len + 1))

/-- The loop of the slow track, with `left` bytes between `dst` and `from`, and the mark
before it. -/
def encodeFrom : ℕ → List Byte → ℕ → List Byte
  | 0, dst, ptr => dst.set ptr slipEnd
  | left + 1, dst, ptr =>
      if dst.getD left 0 = slipEnd then
        encodeFrom left ((dst.set ptr slipEndReplace).set (ptr - 1) slipEsc) (ptr - 2)
      else if dst.getD left 0 = slipEsc then
        encodeFrom left ((dst.set ptr slipEscReplace).set (ptr - 1) slipEsc) (ptr - 2)
      else encodeFrom left (dst.set ptr (dst.getD left 0)) (ptr - 1)

/-- The memory from `dst` on, and the size. -/
def slipEncodeInline (dst : List Byte) (len : ℕ) : List Byte × ℕ :=
  if len = 0 then (dst, 0)
  else
    let size := estimate (dst.take len) 2
    if size = len + 2 then (((moveUp dst len).set 0 slipEnd).set (size - 1) slipEnd, size)
    else (encodeFrom len (dst.set (size - 1) slipEnd) (size - 2), size)

lemma estimate_eq (packet : List Byte) (size : ℕ) :
    estimate packet size = size + (slip.stuff packet).length := by
  induction packet generalizing size with
  | nil => rfl
  | cons b packet ih =>
    have hone : (slip.stuffOne b).length = if b = slipEnd ∨ b = slipEsc then 2 else 1 :=
      Marks.length_stuffOne
    rw [estimate, ih, Marks.stuff_cons, List.length_append, hone]
    split_ifs <;> omega

lemma slipEncode_length (packet : List Byte) :
    (slipEncode packet).length = (slip.stuff packet).length + 2 := by
  simp [slipEncode]

section SlowTrack
variable {data gap behind : List Byte} {b x y : Byte}

/-- The last byte to be read, in front of the bytes that may be written. -/
lemma read_last : (data ++ b :: gap).getD data.length 0 = b := by
  simp [List.getD_eq_getElem?_getD]

lemma split_one (h : 0 < gap.length) : ∃ front y, gap = front ++ [y] := by
  obtain rfl | ⟨front, y, rfl⟩ := List.eq_nil_or_concat gap
  · simp at h
  · exact ⟨front, y, List.concat_eq_append⟩

lemma split_two (h : 1 < gap.length) : ∃ front x y, gap = front ++ [x, y] := by
  obtain ⟨back, y, rfl⟩ := split_one (by omega : 0 < gap.length)
  obtain ⟨front, x, rfl⟩ := split_one (by simpa using h : 0 < back.length)
  exact ⟨front, x, y, by simp⟩

/-- The places behind the bytes to be read, when the last of these has been read. -/
lemma mem_split {front ys : List Byte} (h : b :: gap = front ++ ys) (behind : List Byte) :
    data ++ [b] ++ (gap ++ behind) = data ++ front ++ (ys ++ behind) := by
  have hcons : b :: (gap ++ behind) = front ++ (ys ++ behind) := by
    rw [← List.cons_append, h, List.append_assoc]
  rw [List.append_assoc, List.singleton_append, hcons, List.append_assoc]

lemma set_pair (xs : List Byte) (x y e z : Byte) (behind : List Byte) :
    ((xs ++ x :: y :: behind).set (xs.length + 1) z).set xs.length e = xs ++ e :: z :: behind := by
  induction xs with
  | nil => rfl
  | cons a xs ih => simp

/-- A byte that is escaped takes the last two of them. -/
lemma escape_step (data behind : List Byte) {front : List Byte} (z : Byte)
    (h : b :: gap = front ++ [x, y]) :
    ((data ++ [b] ++ (gap ++ behind)).set (data.length + 1 + gap.length - 1) z).set
        (data.length + 1 + gap.length - 1 - 1) slipEsc =
      data ++ (front ++ slipEsc :: z :: behind) ∧
    data.length + 1 + gap.length - 1 - 2 = data.length + front.length - 1 := by
  have hlen := congrArg List.length h
  rw [List.length_cons, List.length_append, List.length_cons, List.length_singleton] at hlen
  have hptr : data.length + 1 + gap.length - 1 = (data ++ front).length + 1 := by
    rw [List.length_append]
    omega
  rw [mem_split h, hptr, Nat.add_sub_cancel]
  refine ⟨?_, ?_⟩
  · exact (set_pair (data ++ front) x y slipEsc z behind).trans (List.append_assoc _ _ _)
  · rw [List.length_append]
    omega

lemma plain_step (data behind : List Byte) {front : List Byte} (z : Byte)
    (h : b :: gap = front ++ [y]) :
    (data ++ [b] ++ (gap ++ behind)).set (data.length + 1 + gap.length - 1) z =
      data ++ (front ++ z :: behind) ∧
    data.length + 1 + gap.length - 1 - 1 = data.length + front.length - 1 := by
  have hlen := congrArg List.length h
  rw [List.length_cons, List.length_append, List.length_singleton] at hlen
  have hptr : data.length + 1 + gap.length - 1 = (data ++ front).length := by
    rw [List.length_append]
    omega
  rw [mem_split h, hptr]
  refine ⟨by simp, ?_⟩
  rw [List.length_append]

/-- The loop of the slow track. By induction on the bytes to be read, the last one first;
where it is written, every byte in front of it has still its place. -/
theorem encodeFrom_eq (h : data.length + gap.length = (slip.stuff data).length + 1) :
    encodeFrom data.length (data ++ (gap ++ behind)) (data.length + gap.length - 1) =
      slipEnd :: (slip.stuff data ++ behind) := by
  induction data using List.reverseRecOn generalizing gap behind with
  | nil =>
    obtain ⟨x, rfl⟩ := List.length_eq_one_iff.mp (by simpa using h : gap.length = 1)
    simp [encodeFrom]
  | append_singleton data b ih =>
    have hle : data.length ≤ (slip.stuff data).length := Marks.length_le_stuff
    have hone : (slip.stuffOne b).length = if b = slipEnd ∨ b = slipEsc then 2 else 1 :=
      Marks.length_stuffOne
    have hread : (data ++ [b] ++ (gap ++ behind)).getD data.length 0 = b := by
      rw [List.append_assoc]
      exact read_last
    rw [Marks.stuff_append, Marks.stuff_cons, Marks.stuff_nil, List.append_nil] at h ⊢
    rw [List.length_append, List.length_append, List.length_singleton, hone] at h
    rw [List.length_append, List.length_singleton, encodeFrom, hread]
    by_cases hend : b = slipEnd
    · rw [if_pos (.inl hend)] at h
      obtain ⟨front, x, y, hgap⟩ := split_two (show 1 < (b :: gap).length by simp; omega)
      obtain ⟨hmem, hptr⟩ := escape_step data behind slipEndReplace hgap
      have hlen := congrArg List.length hgap
      simp only [List.length_cons, List.length_append, List.length_nil] at hlen
      rw [if_pos hend, hmem, hptr, ih (by omega)]
      simp [hend, Marks.stuffOne, slip]
    · by_cases hesc : b = slipEsc
      · rw [if_pos (.inr hesc)] at h
        obtain ⟨front, x, y, hgap⟩ := split_two (show 1 < (b :: gap).length by simp; omega)
        obtain ⟨hmem, hptr⟩ := escape_step data behind slipEscReplace hgap
        have hlen := congrArg List.length hgap
        simp only [List.length_cons, List.length_append, List.length_nil] at hlen
        rw [if_neg hend, if_pos hesc, hmem, hptr, ih (by omega)]
        rw [hesc] at hend
        simp [hesc, hend, Marks.stuffOne, slip]
      · rw [if_neg (not_or.mpr ⟨hend, hesc⟩)] at h
        obtain ⟨front, y, hgap⟩ := split_one (show 0 < (b :: gap).length by simp)
        obtain ⟨hmem, hptr⟩ := plain_step data behind b hgap
        have hlen := congrArg List.length hgap
        simp only [List.length_cons, List.length_append, List.length_nil] at hlen
        rw [if_neg hend, if_neg hesc, hmem, hptr, ih (by omega)]
        simp [hend, hesc, Marks.stuffOne, slip]

end SlowTrack

/-- The encoding is laid over the packet and over as many bytes behind it as it needs; both
tracks do the same. -/
theorem slipEncodeInline_eq {packet room : List Byte} (behind : List Byte) (hne : packet ≠ [])
    (h : packet.length + room.length = (slipEncode packet).length) :
    slipEncodeInline (packet ++ (room ++ behind)) packet.length =
      (slipEncode packet ++ behind, (slipEncode packet).length) := by
  have hpos := List.length_pos_iff.mpr hne
  have hle : packet.length ≤ (slip.stuff packet).length := Marks.length_le_stuff
  rw [slipEncode_length] at h
  rw [slipEncodeInline, if_neg hpos.ne', List.take_left, estimate_eq, slipEncode_length]
  dsimp only
  split_ifs with hfast
  · -- nothing is escaped, and two more bytes are needed
    have hstuff : slip.stuff packet = packet := Marks.stuff_eq_self (by omega)
    obtain ⟨x, y, rfl⟩ := List.length_eq_two.mp (show room.length = 2 by omega)
    obtain ⟨b, packet, rfl⟩ := List.exists_cons_of_ne_nil hne
    have hsize : 2 + (slip.stuff (b :: packet)).length - 1 = (b :: packet).length + 1 := by omega
    have hmove : moveUp (b :: packet ++ ([x, y] ++ behind)) (b :: packet).length =
        b :: (b :: packet ++ y :: behind) := by
      simp [moveUp]
    rw [hsize, hmove, hfast, slipEncode, hstuff]
    simp
  · obtain ⟨gap, z, rfl⟩ := split_one (show 0 < room.length by omega)
    rw [List.length_append, List.length_singleton] at h
    have hmark : (packet ++ (gap ++ [z] ++ behind)).set (2 + (slip.stuff packet).length - 1)
        slipEnd = packet ++ (gap ++ slipEnd :: behind) := by
      have hlast : 2 + (slip.stuff packet).length - 1 = (packet ++ gap).length := by
        rw [List.length_append]
        omega
      rw [hlast]
      simp
    have hptr : 2 + (slip.stuff packet).length - 2 = packet.length + gap.length - 1 := by omega
    rw [hmark, hptr, encodeFrom_eq (by omega), slipEncode, Nat.add_comm 2]
    simp

/-- The bytes that are escaped. -/
def marked (packet : List Byte) : ℕ := packet.countP fun b => b = slipEnd ∨ b = slipEsc

lemma stuff_length (packet : List Byte) :
    (slip.stuff packet).length = packet.length + marked packet := by
  induction packet with
  | nil => rfl
  | cons b packet ih =>
    have hone : (slip.stuffOne b).length = if b = slipEnd ∨ b = slipEsc then 2 else 1 :=
      Marks.length_stuffOne
    rw [Marks.stuff_cons, List.length_append, hone, ih, List.length_cons, marked, marked,
      List.countP_cons]
    by_cases hmark : b = slipEnd ∨ b = slipEsc
    · rw [if_pos hmark, if_pos (decide_eq_true hmark)]
      omega
    · rw [if_neg hmark, if_neg (by simpa using hmark)]
      omega

/-- In a memory with room for two more bytes and one more for each that is escaped, the
frame is laid over as many bytes, and decoding in the same place brings the packet back,
whatever stands behind it. -/
theorem in_place_round_trip (dst : List Byte) (len : ℕ) (hpos : 0 < len) (hlen : len ≤ dst.length)
    (hroom : len + marked (dst.take len) + 2 ≤ dst.length) :
    let (mem, size) := slipEncodeInline dst len
    size = len + marked (dst.take len) + 2 ∧ mem = overlay (slipEncode (dst.take len)) dst ∧
      slipDecode mem = ⟨overlay (dst.take len) mem, len, size⟩ := by
  obtain ⟨packet, hpacket⟩ : ∃ packet, packet = dst.take len := ⟨_, rfl⟩
  have hplen : packet.length = len := by rw [hpacket, List.length_take_of_le hlen]
  have hne : packet ≠ [] := List.ne_nil_of_length_pos (by omega)
  have hsize : (slipEncode packet).length = len + marked packet + 2 := by
    rw [slipEncode_length, stuff_length, hplen]
  rw [← hpacket] at hroom ⊢
  obtain ⟨room, hrest⟩ : ∃ room, room = (dst.drop len).take (marked packet + 2) := ⟨_, rfl⟩
  have hdst : dst = packet ++ (room ++ dst.drop (len + marked packet + 2)) := by
    have hdrop : dst.drop (len + marked packet + 2) = (dst.drop len).drop (marked packet + 2) := by
      rw [List.drop_drop, Nat.add_assoc]
    rw [hdrop, hrest, List.take_append_drop, hpacket, List.take_append_drop]
  have hfill : packet.length + room.length = (slipEncode packet).length := by
    rw [hsize, hplen, hrest, List.length_take, List.length_drop]
    omega
  have hencode := slipEncodeInline_eq (dst.drop (len + marked packet + 2)) hne hfill
  rw [← hdst, hplen, hsize] at hencode
  rw [hencode]
  refine ⟨rfl, by rw [overlay, hsize], ?_⟩
  rw [slipDecode_frame, hplen, hsize]

/-- Both marks are escaped, and the memory has one byte more than is needed. -/
theorem in_place_round_trip_marks :
    slipEncodeInline [0xc0, 0x61, 0xdb, 1, 2, 3, 4, 5] 3 =
      ([0xc0, 0xdb, 0xdc, 0x61, 0xdb, 0xdd, 0xc0, 5], 7) ∧
    slipDecode (slipEncodeInline [0xc0, 0x61, 0xdb, 1, 2, 3, 4, 5] 3).1 =
      ⟨[0xc0, 0x61, 0xdb, 0x61, 0xdb, 0xdd, 0xc0, 5], 3, 7⟩ := by
  have hround := in_place_round_trip [0xc0, 0x61, 0xdb, 1, 2, 3, 4, 5] 3 (by decide) (by decide)
    (by decide)
  exact ⟨by decide, hround.2.2.trans (by decide)⟩

end Osc2FtdiDmx.SlipEncode
