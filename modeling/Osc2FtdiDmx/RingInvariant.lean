import Osc2FtdiDmx.VarchunkThreads

/-! The invariant of the receive ring. The chunks that are published and not released
lie one after the other from the tail on, each with its header and bytes in place; the
producer stores only behind them, the consumer reads only the first. -/
namespace Osc2FtdiDmx.RingInvariant
open BytesEndian CircularBuffer VarchunkRing VarchunkThreads

/-- The entry lies at position `v`: a gap up to the end of the buffer if it has one,
then the header and the bytes of the chunk without a break. -/
structure EntryAt (buf : ℕ → Byte) (v : ℕ) (e : Entry) : Prop where
  aligned : 8 ∣ e.gap
  gap : e.gap ≠ 0 → v % 8192 + e.gap = 8192 ∧ readRun buf (v % 8192 + 4) 4 = bytesLE 4 1
  inside : (v + e.gap) % 8192 + 8 + pad8 e.data.length ≤ 8192
  size : readRun buf ((v + e.gap) % 8192) 4 = bytesLE 4 e.data.length
  flag : readRun buf ((v + e.gap) % 8192 + 4) 4 = bytesLE 4 0
  data : readRun buf ((v + e.gap) % 8192 + 8) e.data.length = e.data

def Layout (buf : ℕ → Byte) : ℕ → List Entry → Prop
  | _, [] => True
  | v, e :: es => EntryAt buf v e ∧ Layout buf (v + e.width) es

@[simp] lemma total_nil : total [] = 0 := rfl

@[simp] lemma total_cons (e : Entry) (es : List Entry) : total (e :: es) = e.width + total es := by
  simp [total]

@[simp] lemma total_append (es fs : List Entry) : total (es ++ fs) = total es + total fs := by
  simp [total]

lemma gap_le_width (e : Entry) : e.gap + 8 ≤ e.width := by
  rw [Entry.width]
  omega

section Frame
variable {buf buf' : ℕ → Byte} {v : ℕ} {e : Entry} {es : List Entry}

lemma EntryAt.dvd_width (h : EntryAt buf v e) : 8 ∣ e.width := by
  rw [Entry.width]
  exact Nat.dvd_add (Nat.dvd_add h.aligned (Nat.dvd_refl 8)) (dvd_pad8 _)

/-- An entry depends on its own positions only. -/
lemma EntryAt.congr (h : EntryAt buf v e)
    (heq : ∀ w, v ≤ w → w < v + e.width → cellAt 8192 buf w = cellAt 8192 buf' w) :
    EntryAt buf' v e := by
  have hwidth : e.width = e.gap + 8 + pad8 e.data.length := rfl
  have hle := le_pad8 e.data.length
  have hinside := h.inside
  have hrun : ∀ k i n, k + i + n ≤ e.width → (v + k) % 8192 + i + n ≤ 8192 →
      readRun buf ((v + k) % 8192 + i) n = readRun buf' ((v + k) % 8192 + i) n := by
    intro k i n hkn hfit
    refine readRun_congr fun j hj => ?_
    rw [Nat.add_assoc, ← mod_add_of_lt (by omega)]
    exact heq _ (by omega) (by omega)
  refine ⟨h.aligned, fun hgap => ?_, h.inside, ?_, ?_, ?_⟩
  · obtain ⟨hend, hflag⟩ := h.gap hgap
    have haligned := h.aligned
    have hsame := hrun 0 4 4 (by omega) (by rw [Nat.add_zero]; omega)
    rw [Nat.add_zero] at hsame
    exact ⟨hend, hsame ▸ hflag⟩
  · exact (hrun e.gap 0 4 (by omega) (by omega)).symm.trans h.size
  · exact (hrun e.gap 4 4 (by omega) (by omega)).symm.trans h.flag
  · exact (hrun e.gap 8 _ (by omega) (by omega)).symm.trans h.data

lemma Layout.congr (h : Layout buf v es)
    (heq : ∀ w, v ≤ w → w < v + total es → cellAt 8192 buf w = cellAt 8192 buf' w) :
    Layout buf' v es := by
  induction es generalizing v with
  | nil => trivial
  | cons e es ih =>
    rw [total_cons] at heq
    exact ⟨h.1.congr fun w hw hlt => heq w hw (by omega),
      ih h.2 fun w hw hlt => heq w (by omega) (by omega)⟩

lemma layout_append_singleton :
    Layout buf v (es ++ [e]) ↔ Layout buf v es ∧ EntryAt buf (v + total es) e := by
  induction es generalizing v with
  | nil => simp [Layout]
  | cons f es ih =>
    rw [List.cons_append, Layout, Layout, ih, total_cons, and_assoc, ← Nat.add_assoc]

lemma Layout.dvd_total (h : Layout buf v es) : 8 ∣ total es := by
  induction es generalizing v with
  | nil => exact Nat.dvd_zero 8
  | cons e es ih =>
    rw [total_cons]
    exact Nat.dvd_add h.1.dvd_width (ih h.2)

end Frame

/-- The part of the ring that was granted, for a tail at `t` and a head at `h`. -/
structure Region (t h : ℕ) (grant : Grant) (room : ℕ) : Prop where
  start : grant.start.toNat = (h + grant.gapd.toNat) % 8192
  inside : grant.start.toNat + room ≤ 8192
  free : h + grant.gapd.toNat + room + 8 ≤ t + 8192
  gap : grant.gapd.toNat = 0 ∨ h % 8192 + grant.gapd.toNat = 8192 ∧ 8 ≤ h % 8192

/-- The head and the tail of the code tell the positions of the two ends apart. -/
lemma distance {t k : ℕ} (hk : k < 8192) :
    ((t + k) % 8192 + 8192 - t % 8192) % 8192 = k := by
  omega

lemma region_of_shape {t k p : ℕ} {grant : Grant} (hk : k < 8192) (ht : 8 ∣ t) (hdvd : 8 ∣ k)
    (hshape : GrantShape ((t + k) % 8192) (t % 8192) p grant) (hp : 16 ≤ p) :
    Region t (t + k) grant (room ((t + k) % 8192) (t % 8192) p) := by
  rw [room]
  cases hshape with
  | first hstart hgapd ht0 hle hfit hrsvd =>
    rw [if_pos ⟨ht0, hle⟩, if_pos hfit]
    exact ⟨by omega, by omega, by omega, Or.inl hgapd⟩
  | rest hstart hgapd ht0 hp' hrsvd =>
    rw [if_neg (fun h => h.1 ht0), if_pos ht0]
    exact ⟨by omega, by omega, by omega, Or.inl hgapd⟩
  | upTo hstart hgapd hlt hp' hrsvd =>
    rw [if_neg (by omega), if_neg (by omega)]
    exact ⟨by omega, by omega, by omega, Or.inl hgapd⟩
  | second hstart hgapd ht0 hle hsmall hp' hrsvd =>
    rw [if_pos ⟨ht0, hle⟩, if_neg (by omega)]
    exact ⟨by omega, by omega, by omega, Or.inr ⟨by omega, by omega⟩⟩

/-- What the producer has to know about the ring, for a tail at `t` and a head at `h`. -/
def ProducerAt (t h : ℕ) (s : Machine) : Prop :=
  match s.producer with
  | .idle => True
  | .granted minimum tail grant =>
      Region t h grant (room s.head.toNat tail.toNat (padded minimum))
  | .publishing stores newHead entry =>
      newHead.toNat = (h + entry.width) % 8192 ∧ h + entry.width < t + 8192 ∧
        EntryAt (applyStores s.buf stores) h entry ∧
        ∀ store ∈ stores, ∃ w, h ≤ w ∧ w < h + entry.width ∧ store.1 = w % 8192

/-- What the consumer knows about the first chunk, for a tail at `t`. -/
def ConsumerAt (t : ℕ) (s : Machine) : Prop :=
  match s.consumer with
  | .idle => s.obtained = s.committed.take s.released
  | .gapCheck => s.obtained = s.committed.take s.released ∧ s.queue ≠ []
  | .skipGap => s.obtained = s.committed.take s.released ∧
      ∃ e es, s.queue = e :: es ∧ e.gap ≠ 0
  | .sizeRead off => s.obtained = s.committed.take s.released ∧
      ∃ e es, s.queue = e :: es ∧ e.gap = 0 ∧ off = s.tail
  | .reading off size got => s.obtained = s.committed.take s.released ∧
      ∃ e es, s.queue = e :: es ∧ e.gap = 0 ∧ off = s.tail ∧ size.toNat = e.data.length ∧
        got = e.data.take got.length
  | .holding => s.obtained = s.committed.take (s.released + 1) ∧
      ∃ e es, s.queue = e :: es ∧ e.gap = 0
  | .advancing newTail => s.obtained = s.committed.take (s.released + 1) ∧
      ∃ e es, s.queue = e :: es ∧ e.gap = 0 ∧ newTail.toNat = (t + e.width) % 8192

/-- The ring with its tail at position `t`. -/
structure RingInv (t : ℕ) (s : Machine) : Prop where
  tail : s.tail.toNat = t % 8192
  head : s.head.toNat = (t + total s.queue) % 8192
  aligned : 8 ∣ t
  small : total s.queue < 8192
  layout : Layout s.buf t s.queue
  count : s.released ≤ s.committed.length
  log : s.committed.drop s.released = s.queue.map Entry.data
  producer : ProducerAt t (t + total s.queue) s
  consumer : ConsumerAt t s

lemma ringInv_start (buf : ℕ → Byte) : RingInv 0 (start buf) :=
  ⟨rfl, rfl, Nat.dvd_zero 8, by simp [start], trivial, le_rfl, rfl, trivial, rfl⟩

namespace RingInv
variable {t : ℕ} {s : Machine} {minimum : Size} {grant : Grant}

lemma length (h : RingInv t s) : s.released + s.queue.length = s.committed.length := by
  have hcount := h.count
  have hlen := congrArg List.length h.log
  rw [List.length_drop, List.length_map] at hlen
  omega

lemma head_lt (h : RingInv t s) : s.head.toNat < 8192 := by
  rw [h.head]
  omega

lemma tail_lt (h : RingInv t s) : s.tail.toNat < 8192 := by
  rw [h.tail]
  omega

lemma dvd_head (h : RingInv t s) : 8 ∣ s.head.toNat := by
  have haligned := h.aligned
  have hdvd := h.layout.dvd_total
  rw [h.head]
  omega

lemma dvd_tail (h : RingInv t s) : 8 ∣ s.tail.toNat := by
  have haligned := h.aligned
  rw [h.tail]
  omega

lemma shape (h : RingInv t s) (hgrant : writeRequestMax s.head s.tail minimum = some grant) :
    GrantShape s.head.toNat s.tail.toNat (padded minimum) grant :=
  writeRequestMax_shape h.head_lt h.tail_lt h.dvd_tail hgrant

lemma region (h : RingInv t s) (hgrant : writeRequestMax s.head s.tail minimum = some grant) :
    Region t (t + total s.queue) grant (room s.head.toNat s.tail.toNat (padded minimum)) := by
  have hshape := h.shape hgrant
  rw [h.head, h.tail] at hshape ⊢
  exact region_of_shape h.small h.aligned h.layout.dvd_total hshape (Nat.le_add_right 16 _)

/-- The cells of the positions behind the head are free. -/
lemma not_inUse (h : RingInv t s) {w : ℕ} (hle : t + total s.queue ≤ w) (hlt : w < t + 8192) :
    ¬ InUse s.head s.tail (w % 8192) := by
  rintro ⟨-, huse⟩
  rw [h.head, h.tail, distance h.small, ← Nat.add_sub_cancel' (show t ≤ w by omega),
    distance (show w - t < 8192 by omega)] at huse
  omega

end RingInv

end Osc2FtdiDmx.RingInvariant
