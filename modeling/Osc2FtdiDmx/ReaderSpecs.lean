import Osc2FtdiDmx.OscReader

/-! What the reader does in front of bytes that are known: each field of a well-formed
packet is read and passed over, and no size computation wraps around. -/
namespace Osc2FtdiDmx.ReaderSpecs
open BytesEndian OscMemory OscReader Get

/-- The cursor stands before `bs`, and `bs` reaches to the end of the packet. -/
structure Over (m : Memory) (r : Reader) (bs : List Byte) : Prop where
  holds : Holds m r.ptr bs
  stop : r.endPtr.toNat = r.ptr.toNat + bs.length
  below : r.endPtr.toNat + 16 ≤ 2 ^ 64

variable {m : Memory} {r : Reader} {bs xs ys : List Byte} {n : Addr}

theorem Over.need (h : Over m r bs) (hn : n.toNat ≤ bs.length) : readerOverflow r n = false := by
  have hstop := h.stop
  have hbelow := h.below
  rw [readerOverflow, decide_eq_false_iff_not, BitVec.lt_def, BitVec.toNat_add,
    Nat.mod_eq_of_lt (by omega)]
  omega

theorem Over.short (h : Over m r bs) (hn : bs.length < n.toNat) (hn' : n.toNat ≤ 15) :
    readerOverflow r n = true := by
  have hstop := h.stop
  have hbelow := h.below
  rw [readerOverflow, decide_eq_true_eq, BitVec.lt_def, BitVec.toNat_add,
    Nat.mod_eq_of_lt (by omega)]
  omega

theorem Over.advance_toNat (h : Over m r (xs ++ ys)) (hn : n.toNat = xs.length) :
    (r.ptr + n).toNat = r.ptr.toNat + xs.length := by
  have hstop := h.stop
  have hbelow := h.below
  rw [List.length_append] at hstop
  rw [BitVec.toNat_add, hn, Nat.mod_eq_of_lt (by omega)]

theorem Over.drop (h : Over m r (xs ++ ys)) (hn : n.toNat = xs.length) :
    Over m (r.advance n) ys := by
  have hstop := h.stop
  have hptr := h.advance_toNat hn
  have hofNat : BitVec.ofNat 64 xs.length = n := by rw [← hn, BitVec.ofNat_toNat, BitVec.setWidth_eq]
  refine ⟨?_, ?_, h.below⟩
  · rw [Reader.advance_ptr, ← hofNat]
    exact (holds_append.mp h.holds).2
  · rw [List.length_append] at hstop
    rw [Reader.advance_endPtr, Reader.advance_ptr, hptr, hstop]
    omega

theorem Over.toNat_ofNat (h : Over m r bs) {k : ℕ} (hk : k ≤ bs.length) :
    (BitVec.ofNat 64 k).toNat = k := by
  have hstop := h.stop
  have hbelow := h.below
  rw [BitVec.toNat_ofNat, Nat.mod_eq_of_lt (by omega)]

theorem Over.need_length (h : Over m r (xs ++ ys)) :
    readerOverflow r (BitVec.ofNat 64 xs.length) = false := by
  have hle : xs.length ≤ (xs ++ ys).length := by simp
  apply h.need
  rwa [h.toNat_ofNat hle]

theorem Over.drop_length (h : Over m r (xs ++ ys)) :
    Over m (r.advance (BitVec.ofNat 64 xs.length)) ys :=
  h.drop (h.toNat_ofNat (by simp))

theorem over_readerInit {p : Addr} (h : Placed m p bs) :
    Over m (readerInitialize p (BitVec.ofNat 64 bs.length)) bs := by
  have hbelow := h.below
  have hend : (p + BitVec.ofNat 64 bs.length).toNat = p.toNat + bs.length := by
    rw [BitVec.toNat_add, BitVec.toNat_ofNat, Nat.mod_eq_of_lt (show bs.length < 2 ^ 64 by omega),
      Nat.mod_eq_of_lt (by omega)]
  refine ⟨h.holds, hend, ?_⟩
  change (p + BitVec.ofNat 64 bs.length).toNat + 16 ≤ 2 ^ 64
  omega

/-- The shape of the reads of `n` bytes: check, load, pass over. -/
def readField {α : Type} (n : ℕ) (f : List Byte → α) : Get α := do
  need (BitVec.ofNat 64 n)
  let p ← cursor
  let bs ← peek (loads · p n)
  skip (BitVec.ofNat 64 n)
  pure (f bs)

/-- A field is refused where it does not fit, and else loaded and passed over. -/
theorem readField_eq {α : Type} (n : ℕ) (f : List Byte → α) :
    readField n f m r =
      if readerOverflow r (BitVec.ofNat 64 n) then .ok (none, r) else
        loads m r.ptr n >>= fun bs => .ok (some (f bs), r.advance (BitVec.ofNat 64 n)) := by
  cases hneed : readerOverflow r (BitVec.ofNat 64 n) with
  | true => exact bind_of_none (need_overflow hneed)
  | false =>
    rw [readField, bind_of_some (need_eq hneed), bind_of_some cursor_eq]
    change Get.bind (peek _) _ m r = _
    cases hload : loads m r.ptr n with
    | error e => simp [Get.bind, peek, hload]
    | ok bs => simp [Get.bind, peek, hload]; rfl

theorem readField_over {α : Type} (f : List Byte → α) (h : Over m r (xs ++ ys)) :
    readField xs.length f m r = .ok (some (f xs), r.advance (BitVec.ofNat 64 xs.length)) := by
  have hload : loads m r.ptr xs.length = .ok xs := loads_holds h.holds
  rw [readField_eq, h.need_length, hload]
  rfl

theorem readField_some {α : Type} {k : ℕ} {f : List Byte → α} {v : α} {r' : Reader}
    (h : readField k f m r = .ok (some v, r')) :
    readerOverflow r (BitVec.ofNat 64 k) = false ∧ r' = r.advance (BitVec.ofNat 64 k) := by
  rw [readField_eq] at h
  split_ifs at h with hneed
  · cases h
  · obtain ⟨bs, -, h⟩ := bind_eq_ok.mp h
    cases h
    exact ⟨by simpa using hneed, rfl⟩

theorem be32toh_over (h : Over m r (xs ++ ys)) (hx : xs.length = 4) :
    readerBe32toh m r = .ok (some (BitVec.ofNat 32 (valueBE xs)), r.advance 4) := by
  have hread := readField_over (fun bs => BitVec.ofNat 32 (valueBE bs)) h
  rwa [hx] at hread

theorem be64toh_over (h : Over m r (xs ++ ys)) (hx : xs.length = 8) :
    readerBe64toh m r = .ok (some (BitVec.ofNat 64 (valueBE xs)), r.advance 8) := by
  have hread := readField_over (fun bs => BitVec.ofNat 64 (valueBE bs)) h
  rwa [hx] at hread

theorem int32_over {v : BitVec 32} (h : Over m r (bytesBE 4 v.toNat ++ ys)) :
    readerGetInt32 m r = .ok (some v, r.advance 4) := by
  rw [readerGetInt32, be32toh_over h (bytesBE_length _ _), ofNat_valueBE_bytesBE 4 v]

theorem int64_over {v : BitVec 64} (h : Over m r (bytesBE 8 v.toNat ++ ys)) :
    readerGetInt64 m r = .ok (some v, r.advance 8) := by
  rw [readerGetInt64, be64toh_over h (bytesBE_length _ _), ofNat_valueBE_bytesBE 8 v]

/-- Sign extension keeps the number of a size below `2 ^ 31`. -/
theorem signExtend_toNat {s : BitVec 32} (hs : s.toNat < 2 ^ 31) :
    (s.signExtend 64).toNat = s.toNat := by
  have hmsb : s.msb = false := by
    rw [BitVec.msb_eq_false_iff_two_mul_lt]
    omega
  rw [BitVec.signExtend_eq_setWidth_of_msb_false hmsb, BitVec.toNat_setWidth]
  omega

theorem itemRaw_over {itm : Item} {k : ℕ} (hk : k < 2 ^ 31) (hx : xs.length = k)
    (h : Over m r (bytesBE 4 k ++ (xs ++ ys))) :
    readerItemRaw itm m r =
      .ok (some { itm with size := BitVec.ofNat 32 k, body := r.ptr + 4 }, r.advance 4) := by
  have hsize : (BitVec.ofNat 32 k).toNat = k := by
    rw [BitVec.toNat_ofNat, Nat.mod_eq_of_lt (by omega)]
  have hint : readerGetInt32 m r = .ok (some (BitVec.ofNat 32 k), r.advance 4) := by
    apply int32_over
    rwa [hsize]
  have hrest : Over m (r.advance 4) (xs ++ ys) := h.drop (by simp)
  have hneed : readerOverflow (r.advance 4) ((BitVec.ofNat 32 k).signExtend 64) = false := by
    apply hrest.need
    rw [signExtend_toNat (by omega), hsize, List.length_append]
    omega
  rw [readerItemRaw, bind_of_some hint, bind_of_some (need_eq hneed),
    bind_of_some cursor_eq, pure_eq]
  rfl

theorem itemRaw_end {itm : Item} (h : Over m r []) : readerItemRaw itm m r = .ok (none, r) := by
  have hneed : need 4 m r = .ok (none, r) := by
    exact need_overflow (h.short (by simp) (by simp))
  have hint : readerGetInt32 m r = .ok (none, r) := bind_of_none hneed
  exact bind_of_none hint

theorem bundleBegin_over {timetag : BitVec 64}
    (h : Over m r (bundleTag ++ (bytesBE 8 timetag.toNat ++ ys))) (hn : r.ptr + n = r.endPtr) :
    readerBundleBegin n m r =
      readerItemRaw ⟨0, 0, timetag, r.endPtr⟩ m ((r.advance 8).advance 8) := by
  have hlen : readerOverflow r n = false := by
    rw [readerOverflow, hn]
    simp
  have hhead : readerOverflow r 16 = false := by
    apply h.need
    simp [bundleTag]
  have htag : strncmpEq m r.ptr bundleTag = .ok true := strncmpEq_holds h.holds
  have htime : readerGetTimetag m (r.advance 8) = .ok (some timetag, (r.advance 8).advance 8) :=
    int64_over (h.drop rfl)
  rw [readerBundleBegin, readerItemBegin, bind_of_some (need_eq hlen),
    bind_of_some cursor_eq, bind_of_some (need_eq hhead), bind_of_some (peek_eq htag), if_pos rfl,
    bind_of_some skip_eq, bind_of_some htime, hn]

theorem isBundle_bundle (h : Over m r (bundleTag ++ ys)) : readerIsBundle m r = .ok true :=
  strncmpEq_holds h.holds

theorem isBundle_slash (h : load m r.ptr = .ok slash) : readerIsBundle m r = .ok false := by
  have hne : slash ≠ (0x23 : Byte) := by decide
  rw [readerIsBundle, bundleTag, strncmpEq, h, ok_bind, if_pos hne]
  rfl

theorem isMessage_slash (h : load m r.ptr = .ok slash) : readerIsMessage m r = .ok true := by
  rw [readerIsMessage, h, ok_bind]
  simp

theorem isBundle_message (h : Over m r (slash :: ys)) : readerIsBundle m r = .ok false :=
  isBundle_slash (load_holds h.holds)

theorem isMessage_message (h : Over m r (slash :: ys)) : readerIsMessage m r = .ok true :=
  isMessage_slash (load_holds h.holds)

end Osc2FtdiDmx.ReaderSpecs
