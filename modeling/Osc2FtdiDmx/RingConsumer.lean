import Osc2FtdiDmx.RingInvariant

/-! The steps of the `_beat` thread keep the invariant of the ring: it finds the gap where
there is one, and the size and the bytes of the first chunk. -/
namespace Osc2FtdiDmx.RingConsumer
open BytesEndian CircularBuffer VarchunkRing VarchunkThreads RingInvariant

variable {t : ℕ} {s s' : Machine}

lemma ringInv_consumer (h : RingInv t s) {consumer : Consumer} {obtained : List (List Byte)}
    (hconsumer : ConsumerAt t { s with consumer, obtained }) :
    RingInv t { s with consumer, obtained } :=
  ⟨h.tail, h.head, h.aligned, h.small, h.layout, h.count, h.log, h.producer, hconsumer⟩

lemma readSpace_eq (h : RingInv t s) : (readSpace s.head s.tail).toNat = total s.queue := by
  rw [readSpace_toNat h.head_lt h.tail_lt, h.head, h.tail, distance h.small]

lemma readSpace_pos (h : RingInv t s) : 0 < readSpace s.head s.tail ↔ s.queue ≠ [] := by
  have hzero : (0 : Size).toNat = 0 := rfl
  rw [BitVec.lt_def, readSpace_eq h, hzero]
  cases s.queue with
  | nil => simp
  | cons e es =>
    have hwidth := gap_le_width e
    rw [total_cons]
    simp only [ne_eq, reduceCtorEq, not_false_eq_true, iff_true]
    omega

/-- Where the readable part does not wrap around, it does not start with a gap. -/
lemma no_gap (h : RingInv t s) {e : Entry} {es : List Entry} (hqueue : s.queue = e :: es)
    (hwrap : ¬ ringSize < s.tail + readSpace s.head s.tail) : e.gap = 0 := by
  have hsmall := h.small
  have hentry := h.layout
  rw [BitVec.lt_def, BitVec.toNat_add, readSpace_eq h, h.tail, ringSize_toNat] at hwrap
  rw [hqueue, total_cons] at hwrap hsmall
  rw [hqueue] at hentry
  by_contra hgap
  have hend := (hentry.1.gap hgap).1
  have hwidth := gap_le_width e
  omega

lemma readWord_toNat {buf : ℕ → Byte} {off n : ℕ} (h : readRun buf off 4 = bytesLE 4 n)
    (hn : n < 2 ^ 32) : (readWord buf off).toNat = n := by
  rw [readWord, h, valueLE_bytesLE, BitVec.toNat_ofNat, Nat.mod_mod_of_dvd _ (by norm_num),
    Nat.mod_eq_of_lt hn]

/-- The first chunk of the queue, once its gap is passed, as the code sees it. -/
structure FirstChunk (s : Machine) (e : Entry) : Prop where
  size : (readWord s.buf s.tail.toNat).toNat = e.data.length
  flag : (readWord s.buf (s.tail.toNat + 4)).toNat = 0
  data : readRun s.buf (s.tail.toNat + 8) e.data.length = e.data
  bound : s.tail.toNat + 8 + pad8 e.data.length ≤ 8192

lemma firstChunk (h : RingInv t s) {e : Entry} {es : List Entry} (hqueue : s.queue = e :: es)
    (hgap : e.gap = 0) : FirstChunk s e := by
  have hentry := h.layout
  rw [hqueue] at hentry
  have hsize := hentry.1.size
  have hflag := hentry.1.flag
  have hdata := hentry.1.data
  have hinside := hentry.1.inside
  have hle := le_pad8 e.data.length
  simp only [hgap, Nat.add_zero, ← h.tail] at hsize hflag hdata hinside
  exact ⟨readWord_toNat hsize (by omega), readWord_toNat hflag (by norm_num), hdata, hinside⟩

lemma readRequest_inv (h : RingInv t s) (hstep : act s .readRequest = some s') : RingInv t s' := by
  have hconsumer := h.consumer
  obtain ⟨hc, ⟨-, rfl⟩ | ⟨hspace, -, rfl⟩ | ⟨hspace, hwrap, rfl⟩⟩ := act_readRequest hstep
  · exact h
  · rw [ConsumerAt, hc] at hconsumer
    exact ringInv_consumer h ⟨hconsumer, (readSpace_pos h).mp hspace⟩
  · rw [ConsumerAt, hc] at hconsumer
    obtain ⟨e, es, hqueue⟩ := List.exists_cons_of_ne_nil ((readSpace_pos h).mp hspace)
    exact ringInv_consumer h ⟨hconsumer, e, es, hqueue, no_gap h hqueue hwrap, rfl⟩

lemma checkGap_inv (h : RingInv t s) (hstep : act s .checkGap = some s') : RingInv t s' := by
  have hconsumer := h.consumer
  obtain ⟨hc, hcases⟩ := act_checkGap hstep
  rw [ConsumerAt, hc] at hconsumer
  obtain ⟨hobtained, hne⟩ := hconsumer
  obtain ⟨e, es, hqueue⟩ := List.exists_cons_of_ne_nil hne
  have hentry := h.layout
  rw [hqueue] at hentry
  rcases hcases with ⟨hflag, rfl⟩ | ⟨hflag, rfl⟩
  · refine ringInv_consumer h ⟨hobtained, e, es, hqueue, fun hgap => hflag ?_⟩
    apply BitVec.eq_of_toNat_eq
    exact (firstChunk h hqueue hgap).flag
  · refine ringInv_consumer h ⟨hobtained, e, es, hqueue, ?_, rfl⟩
    by_contra hgap
    have hone := (hentry.1.gap hgap).2
    rw [← h.tail] at hone
    have hread := readWord_toNat hone (by norm_num)
    rw [hflag] at hread
    exact absurd hread (by decide)

lemma producer_mono {t' : ℕ} (h : RingInv t s) {queue : List Entry} {tail : Size}
    {consumer : Consumer} {released : ℕ} (hle : t ≤ t')
    (hsum : t' + total queue = t + total s.queue) :
    ProducerAt t' (t' + total queue) { s with tail, consumer, queue, released } := by
  have hproducer := h.producer
  rw [hsum]
  cases hp : s.producer <;> simp only [ProducerAt, hp] at hproducer ⊢
  case granted =>
    exact ⟨hproducer.start, hproducer.inside, hproducer.free.trans (by omega), hproducer.gap⟩
  case publishing =>
    obtain ⟨hhead, hfree, hrest⟩ := hproducer
    exact ⟨hhead, by omega, hrest⟩

/-- Passing the gap moves the tail to the chunk behind it. -/
lemma skipGap_inv (h : RingInv t s) (hstep : act s .skipGap = some s') :
    ∃ t', RingInv t' s' := by
  have hconsumer := h.consumer
  obtain ⟨hc, rfl⟩ := act_skipGap hstep
  rw [ConsumerAt, hc] at hconsumer
  obtain ⟨hobtained, e, es, hqueue, hgap⟩ := hconsumer
  have hentry := h.layout
  have hsmall := h.small
  have hlog := h.log
  have hhead := h.head
  rw [hqueue] at hentry hlog
  obtain ⟨hfirst, hrest⟩ := hentry
  obtain ⟨hend, -⟩ := hfirst.gap hgap
  have htail : (readAdvanceRaw s.tail (ringSize - s.tail)).toNat = (t + e.gap) % 8192 := by
    rw [readAdvanceRaw, ringMask_toNat, BitVec.toNat_add, BitVec.toNat_sub, ringSize_toNat, h.tail]
    omega
  have hzero : readAdvanceRaw s.tail (ringSize - s.tail) = 0 := by
    apply BitVec.eq_of_toNat_eq
    rw [htail]
    change (t + e.gap) % 8192 = 0
    omega
  have hwidth : e.gap + ({ e with gap := 0 } : Entry).width = e.width := by
    simp only [Entry.width]
    omega
  rw [hqueue, total_cons] at hsmall hhead
  simp only [hqueue, skipHead]
  have hsum : t + e.gap + total ({ e with gap := 0 } :: es) = t + total s.queue := by
    rw [hqueue, total_cons, total_cons]
    omega
  refine ⟨t + e.gap, htail, ?_, Nat.dvd_add h.aligned hfirst.aligned, ?_, ⟨?_, ?_⟩, h.count,
    hlog, producer_mono h (Nat.le_add_right _ _) hsum, hobtained, _, es, rfl, rfl, hzero.symm⟩
  · simp only [total_cons]
    rw [hhead]
    congr 1
    omega
  · simp only [total_cons]
    omega
  · refine ⟨Nat.dvd_zero 8, fun hne => absurd rfl hne, ?_, ?_, ?_, ?_⟩
    · exact hfirst.inside
    · exact hfirst.size
    · exact hfirst.flag
    · exact hfirst.data
  · rw [Nat.add_assoc, hwidth]
    exact hrest

lemma readSize_inv (h : RingInv t s) (hstep : act s .readSize = some s') : RingInv t s' := by
  have hconsumer := h.consumer
  obtain ⟨off, hc, rfl⟩ := act_readSize hstep
  rw [ConsumerAt, hc] at hconsumer
  obtain ⟨hobtained, e, es, hqueue, hgap, rfl⟩ := hconsumer
  have hchunk := firstChunk h hqueue hgap
  exact ringInv_consumer h ⟨hobtained, e, es, hqueue, hgap, rfl, hchunk.size, by simp⟩

lemma readByte_inv (h : RingInv t s) (hstep : act s .readByte = some s') : RingInv t s' := by
  have hconsumer := h.consumer
  obtain ⟨off, size, got, hc, hlt, rfl⟩ := act_readByte hstep
  rw [ConsumerAt, hc] at hconsumer
  obtain ⟨hobtained, e, es, hqueue, hgap, rfl, hsize, hgot⟩ := hconsumer
  have hdata := (firstChunk h hqueue hgap).data
  have hbyte : e.data[got.length]? = some (s.buf (s.tail.toNat + 8 + got.length)) := by
    rw [← hdata, readRun, List.getElem?_map, List.getElem?_range (by omega)]
    rfl
  refine ringInv_consumer h ⟨hobtained, e, es, hqueue, hgap, rfl, hsize, ?_⟩
  rw [List.length_append, List.length_singleton, List.take_add_one, hbyte, ← hgot]
  rfl

lemma readDone_inv (h : RingInv t s) (hstep : act s .readDone = some s') : RingInv t s' := by
  have hconsumer := h.consumer
  obtain ⟨off, size, got, hc, hlen, rfl⟩ := act_readDone hstep
  rw [ConsumerAt, hc] at hconsumer
  obtain ⟨hobtained, e, es, hqueue, hgap, rfl, hsize, hgot⟩ := hconsumer
  have hfull : got = e.data := by
    rw [hgot, hlen, hsize, List.take_length]
  have hnext : s.committed[s.released]? = some e.data := by
    rw [← Nat.add_zero s.released, ← List.getElem?_drop, h.log, hqueue]
    rfl
  refine ringInv_consumer h ⟨?_, e, es, hqueue, hgap⟩
  rw [List.take_add_one, hnext, hobtained, hfull]
  rfl

lemma readAdvance_inv (h : RingInv t s) (hstep : act s .readAdvance = some s') :
    RingInv t s' := by
  have hconsumer := h.consumer
  obtain ⟨hc, rfl⟩ := act_readAdvance hstep
  rw [ConsumerAt, hc] at hconsumer
  obtain ⟨hobtained, e, es, hqueue, hgap⟩ := hconsumer
  have hchunk := firstChunk h hqueue hgap
  have hbound := hchunk.bound
  have hle := le_pad8 e.data.length
  have hword : ((readWord s.buf s.tail.toNat).setWidth 64 : Size).toNat = e.data.length := by
    rw [BitVec.toNat_setWidth, hchunk.size, Nat.mod_eq_of_lt (by omega)]
  refine ringInv_consumer h ⟨hobtained, e, es, hqueue, hgap, ?_⟩
  rw [readAdvanceTail, readAdvanceRaw, ringMask_toNat, BitVec.toNat_add, BitVec.toNat_add,
    sizeofElmnt_toNat, varchunkPad_toNat (by omega), hword, h.tail, Entry.width, hgap]
  omega

/-- Releasing the chunk moves the tail to the next entry. -/
lemma release_inv (h : RingInv t s) (hstep : act s .release = some s') : ∃ t', RingInv t' s' := by
  have hconsumer := h.consumer
  obtain ⟨newTail, hc, rfl⟩ := act_release hstep
  rw [ConsumerAt, hc] at hconsumer
  obtain ⟨hobtained, e, es, hqueue, hgap, htail⟩ := hconsumer
  have hentry := h.layout
  have hsmall := h.small
  have hhead := h.head
  have hlen := h.length
  have hlog : s.committed.drop (s.released + 1) = es.map Entry.data := by
    rw [← List.drop_drop, h.log, hqueue]
    rfl
  have hsum : t + e.width + total es = t + total s.queue := by
    rw [hqueue, total_cons, Nat.add_assoc]
  rw [hqueue] at hentry
  rw [hqueue, total_cons] at hsmall hhead
  rw [hqueue, List.length_cons] at hlen
  simp only [hqueue, List.tail_cons]
  refine ⟨t + e.width, htail, ?_, Nat.dvd_add h.aligned hentry.1.dvd_width, ?_, hentry.2, ?_, hlog,
    producer_mono h (Nat.le_add_right _ _) hsum, hobtained⟩
  · simp only
    rw [hhead, Nat.add_assoc]
  · simp only
    omega
  · simp only
    omega

end Osc2FtdiDmx.RingConsumer
