import Osc2FtdiDmx.RingInvariant

/-! The steps of the input thread keep the invariant of the ring, as long as what it
stores and commits fits in the part it was granted. -/
namespace Osc2FtdiDmx.RingProducer
open BytesEndian CircularBuffer VarchunkRing VarchunkThreads RingInvariant

variable {t : ℕ} {s s' : Machine}

/-- Stores behind the head leave every published chunk as it is. -/
lemma layout_update {buf : ℕ → Byte} {es : List Entry} {w : ℕ} {b : Byte} (h : Layout buf t es)
    (hw : t + total es ≤ w) (hw' : w < t + 8192) :
    Layout (Function.update buf (w % 8192) b) t es :=
  h.congr fun _ hv hlt => (cellAt_update (by omega) (by omega) b).symm

lemma ringInv_producer (h : RingInv t s) {producer : Producer}
    (hproducer : ProducerAt t (t + total s.queue) { s with producer }) :
    RingInv t { s with producer } :=
  ⟨h.tail, h.head, h.aligned, h.small, h.layout, h.count, h.log, hproducer, h.consumer⟩

lemma request_inv (h : RingInv t s) {minimum : Size} (hstep : act s (.request minimum) = some s') :
    RingInv t s' := by
  rcases act_request hstep with ⟨grant, hgrant, rfl⟩ | rfl
  · exact ringInv_producer h (h.region hgrant)
  · exact ringInv_producer h trivial

lemma store_inv (h : RingInv t s) {i : ℕ} {b : Byte} (hfits : Fits s (.store i b))
    (hstep : act s (.store i b) = some s') : RingInv t s' := by
  have hproducer := h.producer
  obtain ⟨minimum, tail, grant, hp, rfl⟩ := act_store hstep
  rw [ProducerAt, hp] at hproducer
  have hroom := (fitsGrant_granted hp (i + 1)).mp hfits
  have hpad := le_pad8 (i + 1)
  have hfree := hproducer.free
  have hoff : grant.start.toNat + 8 + i =
      (t + total s.queue + grant.gapd.toNat + 8 + i) % 8192 := by
    have hstart := hproducer.start
    have hinside := hproducer.inside
    omega
  have hlayout := layout_update (b := b) h.layout
    (w := t + total s.queue + grant.gapd.toNat + 8 + i) (by omega) (by omega)
  rw [← hoff] at hlayout
  refine ⟨h.tail, h.head, h.aligned, h.small, hlayout, h.count, h.log, ?_, h.consumer⟩
  simp only [ProducerAt, hp]
  exact hproducer

section Commit
variable {h n : ℕ} {buf : ℕ → Byte}

lemma readRun_stores {stores : List (ℕ × Byte)} {x k : ℕ}
    (hne : ∀ store ∈ stores, ∀ i < k, store.1 ≠ x + i) :
    readRun (applyStores buf stores) x k = readRun buf x k :=
  readRun_congr fun i hi => applyStores_of_ne fun store hstore => hne store hstore i hi

lemma elmntStores_mem {off : ℕ} {size gap : BitVec 32} {store : ℕ × Byte}
    (hstore : store ∈ elmntStores off size gap) : off ≤ store.1 ∧ store.1 < off + 8 := by
  have hmem := mem_putRun hstore
  rwa [List.length_append, bytesLE_length, bytesLE_length] at hmem

lemma elmntStores_read (buf : ℕ → Byte) (off : ℕ) (size gap : BitVec 32) :
    readRun (applyStores buf (elmntStores off size gap)) off 4 = bytesLE 4 size.toNat ∧
      readRun (applyStores buf (elmntStores off size gap)) (off + 4) 4 = bytesLE 4 gap.toNat := by
  have hread := applyStores_putRun buf off (bytesLE 4 size.toNat ++ bytesLE 4 gap.toNat)
  rw [List.length_append, bytesLE_length, bytesLE_length, readRun_add] at hread
  exact List.append_inj hread (by simp)

/-- The head behind the chunk; no sum of the code wraps around. -/
lemma advanceHead_toNat {head gapd written : Size} (hhead : head.toNat = h % 8192)
    (hn : written.toNat ≤ 8192) :
    (advanceHead head gapd written).toNat =
      (h + (gapd.toNat + 8 + pad8 written.toNat)) % 8192 := by
  have hpad := pad8_lt written.toNat
  rw [advanceHead, ringMask_toNat, BitVec.toNat_add, BitVec.toNat_add, BitVec.toNat_add,
    sizeofElmnt_toNat, varchunkPad_toNat (by omega)]
  omega

lemma setWidth_toNat {written : Size} (hn : written.toNat ≤ 8192) :
    (written.setWidth 32).toNat = written.toNat := by
  rw [BitVec.toNat_setWidth, Nat.mod_eq_of_lt (by omega)]

/-- A chunk without a gap: its header is stored at the head. -/
lemma entryAt_head {head written : Size} (hhead : head.toNat = h % 8192)
    (hfit : h % 8192 + 8 + pad8 written.toNat ≤ 8192) :
    EntryAt (applyStores buf (elmntStores head.toNat (written.setWidth 32) 0)) h
      ⟨0, readRun buf (h % 8192 + 8) written.toNat⟩ := by
  have hpad := le_pad8 written.toNat
  obtain ⟨hsize, hflag⟩ := elmntStores_read buf head.toNat (written.setWidth 32) 0
  rw [setWidth_toNat (by omega)] at hsize
  rw [hhead] at hsize hflag ⊢
  have hkeep : readRun (applyStores buf (elmntStores (h % 8192) (written.setWidth 32) 0))
      (h % 8192 + 8) written.toNat = readRun buf (h % 8192 + 8) written.toNat :=
    readRun_stores fun store hstore i hi => by
      have hmem := (elmntStores_mem hstore).2
      omega
  refine ⟨Nat.dvd_zero 8, fun hgap => absurd rfl hgap, ?_, ?_, ?_, ?_⟩ <;>
    simp only [Nat.add_zero, readRun_length]
  · exact hfit
  · exact hsize
  · exact hflag
  · exact hkeep

/-- A chunk behind a gap: the gap element at the head, its own header at offset 0. -/
lemma entryAt_gap {head gapd written : Size} (hhead : head.toNat = h % 8192)
    (hgap : h % 8192 + gapd.toNat = 8192) (hdvd : 8 ∣ h) (hpos : 8 ≤ h % 8192)
    (hfit : 8 + pad8 written.toNat ≤ h % 8192) :
    EntryAt (applyStores buf (elmntStores head.toNat ((gapd - sizeofElmnt).setWidth 32) 1 ++
        elmntStores 0 (written.setWidth 32) 0)) h
      ⟨gapd.toNat, readRun buf 8 written.toNat⟩ := by
  have hpad := le_pad8 written.toNat
  have hmod : (h + gapd.toNat) % 8192 = 0 := by omega
  rw [applyStores_append, hhead]
  set gapStores := elmntStores (h % 8192) ((gapd - sizeofElmnt).setWidth 32) 1 with hstores
  obtain ⟨hsize, hflag⟩ := elmntStores_read (applyStores buf gapStores) 0 (written.setWidth 32) 0
  obtain ⟨-, hgapFlag⟩ := elmntStores_read buf (h % 8192) ((gapd - sizeofElmnt).setWidth 32) 1
  rw [setWidth_toNat (by omega)] at hsize
  have hkeepGap : readRun (applyStores (applyStores buf gapStores)
      (elmntStores 0 (written.setWidth 32) 0)) (h % 8192 + 4) 4 =
      readRun (applyStores buf gapStores) (h % 8192 + 4) 4 :=
    readRun_stores fun store hstore i hi => by
      have hmem := (elmntStores_mem hstore).2
      omega
  have hkeep : readRun (applyStores (applyStores buf gapStores)
      (elmntStores 0 (written.setWidth 32) 0)) 8 written.toNat = readRun buf 8 written.toNat := by
    rw [readRun_stores fun store hstore i hi => by
      have hmem := (elmntStores_mem hstore).2
      omega]
    exact readRun_stores fun store hstore i hi => by
      have hmem := (elmntStores_mem hstore).1
      omega
  refine ⟨?_, fun _ => ⟨hgap, hkeepGap.trans hgapFlag⟩, ?_, ?_, ?_, ?_⟩ <;>
    simp only [hmod, readRun_length, Nat.zero_add]
  · omega
  · omega
  · exact hsize
  · exact hflag
  · exact hkeep

/-- The header stores go to positions of the new entry. -/
lemma advanceStores_mem {head gapd written : Size} {n : ℕ} (hhead : head.toNat = h % 8192)
    (hdvd : 8 ∣ h) (hgap : gapd.toNat = 0 ∨ h % 8192 + gapd.toNat = 8192) {store : ℕ × Byte}
    (hstore : store ∈ advanceStores head gapd written) :
    ∃ w, h ≤ w ∧ w < h + (gapd.toNat + 8 + n) ∧ store.1 = w % 8192 := by
  have hhere : ∀ size gap, store ∈ elmntStores head.toNat size gap →
      ∃ w, h ≤ w ∧ w < h + (gapd.toNat + 8 + n) ∧ store.1 = w % 8192 := by
    intro size gap hmem
    obtain ⟨hle, hlt⟩ := elmntStores_mem hmem
    exact ⟨h + (store.1 - head.toNat), by omega, by omega, by omega⟩
  rw [advanceStores] at hstore
  split_ifs at hstore with hpos
  · rcases List.mem_append.mp hstore with hmem | hmem
    · exact hhere _ _ hmem
    · obtain ⟨-, hlt⟩ := elmntStores_mem hmem
      rw [BitVec.lt_def] at hpos
      have hzero : (0 : Size).toNat = 0 := rfl
      exact ⟨h + gapd.toNat + store.1, by omega, by omega, by omega⟩
  · exact hhere _ _ hstore

/-- The stores of `varchunk_write_advance` put the entry behind the head. -/
lemma entryAt_stores {head written : Size} {grant : Grant} {room : ℕ} (hhead : head.toNat = h % 8192)
    (hdvd : 8 ∣ h) (hle : t ≤ h) (hregion : Region t h grant room)
    (hfit : 8 + pad8 written.toNat ≤ room) :
    EntryAt (applyStores buf (advanceStores head grant.gapd written)) h
      ⟨grant.gapd.toNat, readRun buf (grant.start.toNat + 8) written.toNat⟩ := by
  have hstart := hregion.start
  have hinside := hregion.inside
  have hfree := hregion.free
  have hzero : (0 : Size).toNat = 0 := rfl
  rw [advanceStores]
  rcases hregion.gap with hgap | ⟨hgap, hpos⟩
  · have hnot : ¬ 0 < grant.gapd := by
      rw [BitVec.lt_def]
      omega
    rw [hgap, Nat.add_zero] at hstart
    rw [if_neg hnot, hgap, hstart]
    exact entryAt_head hhead (by omega)
  · have hlt : 0 < grant.gapd := by
      rw [BitVec.lt_def]
      omega
    have hstart0 : grant.start.toNat = 0 := by omega
    rw [if_pos hlt, hstart0, Nat.zero_add]
    exact entryAt_gap hhead hgap hdvd hpos (by omega)

end Commit

lemma commit_inv (h : RingInv t s) {written : Size} (hfits : Fits s (.commit written))
    (hstep : act s (.commit written) = some s') : RingInv t s' := by
  have hproducer := h.producer
  obtain ⟨minimum, tail, grant, hp, -, rfl⟩ := act_commit hstep
  rw [ProducerAt, hp] at hproducer
  have hroom := (fitsGrant_granted hp written.toNat).mp hfits
  have hpad := le_pad8 written.toNat
  have hfree := hproducer.free
  have hinside := hproducer.inside
  have hdvd : 8 ∣ t + total s.queue := Nat.dvd_add h.aligned h.layout.dvd_total
  have hgap : grant.gapd.toNat = 0 ∨
      (t + total s.queue) % 8192 + grant.gapd.toNat = 8192 :=
    hproducer.gap.imp id And.left
  apply ringInv_producer h
  simp only [ProducerAt, Entry.width, readRun_length]
  refine ⟨advanceHead_toNat h.head (by omega), by omega, ?_, fun store hstore => ?_⟩
  · exact entryAt_stores h.head hdvd (Nat.le_add_right _ _) hproducer hroom
  · exact advanceStores_mem h.head hdvd hgap hstore

lemma putByte_inv (h : RingInv t s) (hstep : act s .putByte = some s') : RingInv t s' := by
  have hproducer := h.producer
  obtain ⟨store, stores, newHead, entry, hp, rfl⟩ := act_putByte hstep
  rw [ProducerAt, hp] at hproducer
  obtain ⟨hhead, hfree, hentry, hstores⟩ := hproducer
  obtain ⟨w, hle, hlt, hoff⟩ := hstores store (by simp)
  have hlayout := layout_update (b := store.2) h.layout (w := w) (by omega) (by omega)
  rw [← hoff] at hlayout
  exact ⟨h.tail, h.head, h.aligned, h.small, hlayout, h.count, h.log,
    ⟨hhead, hfree, hentry, fun store' hmem => hstores store' (by simp [hmem])⟩, h.consumer⟩

/-- A new chunk at the end of the queue changes nothing for the consumer. -/
lemma consumer_publish (h : RingInv t s) (e : Entry) (newHead : Size) :
    ConsumerAt t { s with
      head := newHead, producer := .idle, queue := s.queue ++ [e],
      committed := s.committed ++ [e.data] } := by
  have hconsumer := h.consumer
  have hlen := h.length
  have htake : (s.committed ++ [e.data]).take s.released = s.committed.take s.released :=
    List.take_append_of_le_length h.count
  have hnext : ∀ f es, s.queue = f :: es →
      (s.committed ++ [e.data]).take (s.released + 1) = s.committed.take (s.released + 1) := by
    intro f es hqueue
    rw [hqueue, List.length_cons] at hlen
    exact List.take_append_of_le_length (by omega)
  cases hc : s.consumer <;> simp only [ConsumerAt, hc] at hconsumer ⊢
  case idle => exact hconsumer.trans htake.symm
  case gapCheck => exact ⟨hconsumer.1.trans htake.symm, by simp⟩
  case skipGap =>
    obtain ⟨hobtained, f, es, hqueue, hgap⟩ := hconsumer
    exact ⟨hobtained.trans htake.symm, f, es ++ [e], by simp [hqueue], hgap⟩
  case sizeRead =>
    obtain ⟨hobtained, f, es, hqueue, hrest⟩ := hconsumer
    exact ⟨hobtained.trans htake.symm, f, es ++ [e], by simp [hqueue], hrest⟩
  case reading =>
    obtain ⟨hobtained, f, es, hqueue, hrest⟩ := hconsumer
    exact ⟨hobtained.trans htake.symm, f, es ++ [e], by simp [hqueue], hrest⟩
  case holding =>
    obtain ⟨hobtained, f, es, hqueue, hrest⟩ := hconsumer
    exact ⟨hobtained.trans (hnext f es hqueue).symm, f, es ++ [e], by simp [hqueue], hrest⟩
  case advancing =>
    obtain ⟨hobtained, f, es, hqueue, hrest⟩ := hconsumer
    exact ⟨hobtained.trans (hnext f es hqueue).symm, f, es ++ [e], by simp [hqueue], hrest⟩

lemma publish_inv (h : RingInv t s) (hstep : act s .publish = some s') : RingInv t s' := by
  have hproducer := h.producer
  obtain ⟨newHead, entry, hp, rfl⟩ := act_publish hstep
  rw [ProducerAt, hp] at hproducer
  obtain ⟨hhead, hfree, hentry, -⟩ := hproducer
  have htotal : total (s.queue ++ [entry]) = total s.queue + entry.width := by simp
  refine ⟨h.tail, ?_, h.aligned, ?_, layout_append_singleton.mpr ⟨h.layout, hentry⟩, ?_, ?_,
    trivial, consumer_publish h entry newHead⟩
  · rw [htotal, ← Nat.add_assoc]
    exact hhead
  · rw [htotal]
    omega
  · simp only [List.length_append]
    exact Nat.le_add_right_of_le h.count
  · simp only [List.drop_append_of_le_length h.count, h.log, List.map_append]
    rfl

end Osc2FtdiDmx.RingProducer
