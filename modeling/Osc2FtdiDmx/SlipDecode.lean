import Osc2FtdiDmx.BytesEndian
import Osc2FtdiDmx.ByteStuffing

/-! `lv2_osc_slip_decode_inline`, which decodes over the bytes that it reads, against the
decoding of the byte stuffing. -/
namespace Osc2FtdiDmx.SlipDecode
open BytesEndian ByteStuffing

def slipEnd : Byte := 0xc0
def slipEsc : Byte := 0xdb
def slipEndReplace : Byte := 0xdc
def slipEscReplace : Byte := 0xdd

def slip : Marks Byte :=
  ⟨slipEnd, slipEsc, slipEndReplace, slipEscReplace, by decide, by decide⟩

/-- What `lv2_osc_slip_encode_inline` leaves in the buffer: double-ended SLIP. -/
def slipEncode (packet : List Byte) : List Byte := slipEnd :: (slip.stuff packet ++ [slipEnd])

/-- The buffer after decoding, the size of the packet and the number of bytes parsed. -/
structure Decoded where
  dst : List Byte
  size : ℕ
  parsed : ℕ
  deriving DecidableEq, Repr

/-- The loop with `left` bytes between `src` and `end`; what is decoded goes to `ptr`. -/
def decodeFrom (whole : Bool) : ℕ → List Byte → ℕ → ℕ → Decoded
  | 0, dst, _, _ => ⟨dst, 0, 0⟩
  | left + 1, dst, src, ptr =>
      if dst.getD src 0 = slipEsc then
        match left with
        | 0 => ⟨dst, 0, 0⟩
        | left + 1 =>
            if dst.getD (src + 1) 0 = slipEndReplace then
              decodeFrom whole left (dst.set ptr slipEnd) (src + 2) (ptr + 1)
            else if dst.getD (src + 1) 0 = slipEscReplace then
              decodeFrom whole left (dst.set ptr slipEsc) (src + 2) (ptr + 1)
            else decodeFrom whole left dst (src + 2) ptr
      else if dst.getD src 0 = slipEnd then ⟨dst, if whole then ptr else 0, src + 1⟩
      else decodeFrom whole left (dst.set ptr (dst.getD src 0)) (src + 1) (ptr + 1)

def slipDecode (dst : List Byte) : Decoded :=
  if dst.head? = some slipEnd then decodeFrom true (dst.length - 1) dst 1 0
  else decodeFrom false dst.length dst 0 0

/-- Writing `data` over the front part of `mem`. -/
def overlay (data mem : List Byte) : List Byte := data ++ mem.drop data.length

@[simp] lemma overlay_nil (mem : List Byte) : overlay [] mem = mem := rfl

/-- Writing changes nothing where the data already stand. -/
lemma overlay_eq_self {data mem : List Byte} : overlay data mem = mem ↔ data <+: mem :=
  List.prefix_iff_eq_append.symm

lemma take_overlay (data mem : List Byte) : (overlay data mem).take data.length = data := by
  simp [overlay]

lemma drop_overlay {data : List Byte} {n : ℕ} (h : data.length ≤ n) (mem : List Byte) :
    (overlay data mem).drop n = mem.drop n := by
  rw [overlay, List.drop_append, List.drop_eq_nil_of_le h, List.drop_drop,
    Nat.add_sub_cancel' h, List.nil_append]

section Loop
variable {out mem rest : List Byte} {k : ℕ} {b c : Byte}

lemma read_first (h : mem.drop k = b :: rest) :
    (out ++ mem).getD (out.length + k) 0 = b := by
  have hk : mem[k]? = some b := by
    rw [← Nat.add_zero k, ← List.getElem?_drop, h]
    rfl
  simp [List.getD_eq_getElem?_getD, List.getElem?_append_right, hk]

lemma read_second (h : mem.drop k = b :: c :: rest) :
    (out ++ mem).getD (out.length + k + 1) 0 = c := by
  have htail : mem.drop (k + 1) = c :: rest := by simpa using congrArg List.tail h
  exact read_first htail

lemma write_ptr (h : mem.drop k = b :: rest) (x : Byte) :
    (out ++ mem).set out.length x = (out ++ [x]) ++ mem.tail := by
  cases mem with
  | nil => simp at h
  | cons y mem => simp [List.set_append_right]

lemma read_plain (whole : Bool) (left : ℕ) (h : mem.drop k = b :: rest) (hstop : b ≠ slip.stop)
    (hesc : b ≠ slip.esc) :
    decodeFrom whole (left + 1) (out ++ mem) (out.length + k) out.length =
      decodeFrom whole left ((out ++ [b]) ++ mem.tail) ((out ++ [b]).length + k)
        (out ++ [b]).length := by
  rw [decodeFrom.eq_def]
  simp only [read_first h, if_neg (show ¬ b = slipEsc from hesc),
    if_neg (show ¬ b = slipEnd from hstop), write_ptr h b, List.length_append,
    List.length_singleton, Nat.add_right_comm]

lemma read_stop (whole : Bool) (left : ℕ) (h : mem.drop k = slip.stop :: rest) :
    decodeFrom whole (left + 1) (out ++ mem) (out.length + k) out.length =
      ⟨out ++ mem, if whole then out.length else 0, out.length + k + 1⟩ := by
  rw [decodeFrom.eq_def]
  simp only [read_first h]
  rfl

lemma read_pair (whole : Bool) (left : ℕ) (h : mem.drop k = slip.esc :: c :: rest) :
    decodeFrom whole (left + 2) (out ++ mem) (out.length + k) out.length =
      decodeFrom whole left ((out ++ slip.escaped c) ++ mem.drop (slip.escaped c).length)
        ((out ++ slip.escaped c).length + (k + 2 - (slip.escaped c).length))
        (out ++ slip.escaped c).length := by
  rw [decodeFrom.eq_def]
  simp only [read_first h, read_second h, if_pos (show slip.esc = slipEsc from rfl),
    write_ptr h, Marks.escaped]
  have hsrc : out.length + k + 2 = out.length + 1 + (k + 1) := by omega
  by_cases hend : c = slipEndReplace
  · simp [slip, hend, hsrc]
  · by_cases hesc : c = slipEscReplace
    · have hne : slipEscReplace ≠ slipEndReplace := slip.replace_ne.symm
      simp [slip, hesc, hne, hsrc]
    · simp [slip, hend, hesc, Nat.add_assoc]

/-- What the decoder returns for the unread bytes, with `ptr` behind `out` and `src`
behind another `k` bytes. -/
def decodedAs (whole : Bool) (out mem rest : List Byte) (k : ℕ) : Decoded :=
  ⟨out ++ overlay (slip.unstuff rest).1 mem,
    if (slip.unstuff rest).2.isSome ∧ whole then out.length + (slip.unstuff rest).1.length else 0,
    (slip.unstuff rest).2.elim 0 fun more => out.length + k + rest.length - more.length⟩

/-- Reading `n` bytes that stand for `e` moves `out` and what is behind it. -/
lemma decodedAs_step (whole : Bool) {full e : List Byte} {n : ℕ}
    (hfull : slip.unstuff full = (e ++ (slip.unstuff rest).1, (slip.unstuff rest).2))
    (hlen : full.length = rest.length + n) (he : e.length ≤ k + n) :
    decodedAs whole (out ++ e) (mem.drop e.length) rest (k + n - e.length) =
      decodedAs whole out mem full k := by
  have hread : (out ++ e).length + (k + n - e.length) + rest.length =
      out.length + k + (rest.length + n) := by
    rw [List.length_append]
    omega
  simp only [decodedAs, hfull, hlen, hread]
  simp [overlay, Nat.add_assoc]

/-- No byte is written that is still to be read. -/
theorem decodeFrom_eq (whole : Bool) (h : mem.drop k = rest) :
    decodeFrom whole rest.length (out ++ mem) (out.length + k) out.length =
      decodedAs whole out mem rest k := by
  induction rest using slip.unstuff_induction generalizing out mem k with
  | nil => simp [decodeFrom, decodedAs]
  | lone =>
    rw [List.length_singleton, decodeFrom.eq_def]
    simp only [read_first h, if_pos (show slip.esc = slipEsc from rfl)]
    simp [decodedAs]
  | pair c rest ih =>
    have hlen : (slip.escaped c).length ≤ k + 2 := by
      rw [Marks.escaped]
      split_ifs <;> simp
    have hdrop : (mem.drop (slip.escaped c).length).drop (k + 2 - (slip.escaped c).length) =
        rest := by
      rw [List.drop_drop, Nat.add_sub_cancel' hlen, ← List.drop_drop, h]
      rfl
    rw [List.length_cons, List.length_cons, read_pair whole rest.length h, ih hdrop]
    exact decodedAs_step whole Marks.unstuff_esc rfl hlen
  | stop rest =>
    rw [List.length_cons, read_stop whole rest.length h]
    simp [decodedAs]
    omega
  | plain b rest hstop hesc ih =>
    have hdrop : mem.tail.drop k = rest := by
      simpa [List.drop_tail] using congrArg List.tail h
    rw [List.length_cons, read_plain whole rest.length h hstop hesc, ih hdrop]
    simpa using decodedAs_step whole (e := [b]) (Marks.unstuff_plain hstop hesc) rfl
      (Nat.le_add_left 1 k)

end Loop

lemma slipDecode_cons (rest : List Byte) :
    slipDecode (slipEnd :: rest) = decodedAs true [] (slipEnd :: rest) rest 1 := by
  simpa [slipDecode] using @decodeFrom_eq [] (slipEnd :: rest) rest 1 true rfl

/-- A whole frame is parsed, and its packet lies at the start of the buffer. -/
theorem slipDecode_frame (packet more : List Byte) :
    slipDecode (slipEncode packet ++ more) =
      ⟨overlay packet (slipEncode packet ++ more), packet.length, (slipEncode packet).length⟩ := by
  have hunstuff : slip.unstuff (slip.stuff packet ++ slipEnd :: more) = (packet, some more) :=
    Marks.unstuff_stuff_stop
  have hsplit : slipEncode packet ++ more = slipEnd :: (slip.stuff packet ++ slipEnd :: more) := by
    simp [slipEncode]
  rw [hsplit, slipDecode_cons, decodedAs, hunstuff]
  simp [slipEncode]
  omega

/-- Of a frame that has not arrived as a whole nothing is parsed, but what it stands for so
far is written over its first bytes. -/
theorem slipDecode_part {packet part : List Byte} (h : part <+: slip.stuff packet) :
    ∃ data, slipDecode (slipEnd :: part) = ⟨overlay data (slipEnd :: part), 0, 0⟩ ∧
      data <+: packet ∧ slip.stuff data <+: part ∧
      ∀ e, e <+: packet → slip.stuff e <+: part → e <+: data := by
  obtain ⟨data, hunstuff, hdata, hstuff, hmax⟩ := Marks.unstuff_prefix h
  refine ⟨data, ?_, hdata, hstuff, hmax⟩
  rw [slipDecode_cons, decodedAs, hunstuff]
  rfl

end Osc2FtdiDmx.SlipDecode
