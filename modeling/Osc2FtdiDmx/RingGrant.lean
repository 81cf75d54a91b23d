import Osc2FtdiDmx.RingRuns

/-! The room behind a grant. The maximum that a request reports leaves out the chunk
header and the padding, so a commit is right exactly when header, bytes and padding
fit in the free part that the request has found. -/
namespace Osc2FtdiDmx.RingGrant
open BytesEndian CircularBuffer VarchunkRing VarchunkThreads TransitionRuns RingInvariant
open RingProducer RingRuns

/-- The offsets written for a chunk of `n` bytes: its header, its bytes, and the header of
the gap in front of it. -/
def Touched (head : Size) (grant : Grant) (n x : ℕ) : Prop :=
  grant.start.toNat ≤ x ∧ x < grant.start.toNat + 8 + n ∨
    0 < grant.gapd.toNat ∧ head.toNat ≤ x ∧ x < head.toNat + 8

/-- The chunk lies in the buffer and in its free part, and afterwards the distance from
tail to head is the size of the unread chunks and gaps, and less than the ring. -/
structure CommitSound (s : Machine) (grant : Grant) (written : Size) : Prop where
  inside : ∀ x, Touched s.head grant written.toNat x → x < 8192
  free : ∀ x, Touched s.head grant written.toNat x → ¬ InUse s.head s.tail x
  distance : ((advanceHead s.head grant.gapd written).toNat + 8192 - s.tail.toNat) % 8192 =
    total s.queue + (grant.gapd.toNat + 8 + pad8 written.toNat)
  small : total s.queue + (grant.gapd.toNat + 8 + pad8 written.toNat) < 8192

variable {s : Machine} {t : ℕ} {minimum written : Size} {grant : Grant}

/-- Every offset written is the cell of a position behind the head. -/
lemma touched_position {room x n : ℕ} (h : RingInv t s)
    (hregion : Region t (t + total s.queue) grant room) (hfit : 8 + pad8 n ≤ room)
    (hx : Touched s.head grant n x) :
    ∃ w, t + total s.queue ≤ w ∧ w < t + 8192 ∧ x = w % 8192 := by
  have hpad := le_pad8 n
  have hstart := hregion.start
  have hinside := hregion.inside
  have hfree := hregion.free
  rcases hx with ⟨hle, hlt⟩ | ⟨hgap, hle, hlt⟩
  · exact ⟨t + total s.queue + grant.gapd.toNat + (x - grant.start.toNat), by omega, by omega,
      by omega⟩
  · have haligned := h.aligned
    have hdvd := h.layout.dvd_total
    rw [h.head] at hle hlt
    exact ⟨t + total s.queue + (x - (t + total s.queue) % 8192), by omega, by omega, by omega⟩

lemma commitSound_of_fits (h : RingInv t s)
    (hgrant : writeRequestMax s.head s.tail minimum = some grant)
    (hfit : 8 + pad8 written.toNat ≤ room s.head.toNat s.tail.toNat (padded minimum)) :
    CommitSound s grant written := by
  have hregion := h.region hgrant
  have hpad := le_pad8 written.toNat
  have hinside := hregion.inside
  have hfree := hregion.free
  have hsmall : total s.queue + (grant.gapd.toNat + 8 + pad8 written.toNat) < 8192 := by omega
  refine ⟨fun x hx => ?_, fun x hx huse => ?_, ?_, hsmall⟩
  · obtain ⟨w, -, -, rfl⟩ := touched_position h hregion hfit hx
    exact Nat.mod_lt _ (by norm_num)
  · obtain ⟨w, hle, hlt, rfl⟩ := touched_position h hregion hfit hx
    exact h.not_inUse hle hlt huse
  · rw [advanceHead_toNat h.head (by omega), h.tail, Nat.add_assoc t,
      RingInvariant.distance hsmall]

lemma fits_of_commitSound (h : RingInv t s)
    (hgrant : writeRequestMax s.head s.tail minimum = some grant)
    (hsound : CommitSound s grant written) :
    8 + pad8 written.toNat ≤ room s.head.toNat s.tail.toNat (padded minimum) := by
  have haligned := h.aligned
  have hdvd := h.layout.dvd_total
  have hpad := dvd_pad8 written.toNat
  have hlt := pad8_lt written.toNat
  have hsmall := hsound.small
  have hinside := hsound.inside (grant.start.toNat + 7 + written.toNat)
    (Or.inl ⟨by omega, by omega⟩)
  have hshape := h.shape hgrant
  rw [h.head, h.tail] at hshape ⊢
  rw [room]
  cases hshape with
  | first hstart hgapd ht0 hle hfit hrsvd =>
    rw [if_pos ⟨ht0, hle⟩, if_pos hfit]
    omega
  | rest hstart hgapd ht0 hfit hrsvd =>
    rw [if_neg (fun h => h.1 ht0), if_pos ht0]
    omega
  | upTo hstart hgapd hlt' hfit hrsvd =>
    rw [if_neg (by omega), if_neg (by omega)]
    omega
  | second hstart hgapd ht0 hle hsmall' hfit hrsvd =>
    rw [if_pos ⟨ht0, hle⟩, if_neg (by omega)]
    omega

/-- In every reachable state, whatever minimum is asked for and however much is written,
the commit is sound exactly when the chunk fits with its header and padding. -/
theorem commitSound_iff_fits (buf : ℕ → Byte) (s : Machine)
    (hrun : RunsTo (Steps act) Fits (start buf) s) (minimum : Size) (grant : Grant)
    (hgrant : writeRequestMax s.head s.tail minimum = some grant) (written : Size) :
    CommitSound s grant written ↔
      8 + pad8 written.toNat ≤ room s.head.toNat s.tail.toNat (padded minimum) := by
  obtain ⟨t, h⟩ := sound_run hrun
  exact ⟨fits_of_commitSound h hgrant, commitSound_of_fits h hgrant⟩

def twoBytesIn (b : Byte) : List Act := List.flatten
  [[.request 2, .store 0 0x2f, .store 1 b, .commit 2], .replicate 8 .putByte, [.publish]]

def twoBytesOut : List Act :=
  [.readRequest, .readSize, .readByte, .readByte, .readDone, .readAdvance, .release]

/-- One packet is through, a second one unread. -/
def usedRing : List Act := twoBytesIn 0x61 ++ twoBytesOut ++ twoBytesIn 0x62

/-- A header less than the reported maximum can be committed, and a byte more cannot. -/
theorem commitSound_iff_fits_used : ∃ s, follow act Fits (start fun _ => 0) usedRing = some s ∧
    writeRequestMax s.head s.tail 1024 = some ⟨32, 8160, 0⟩ ∧
    CommitSound s ⟨32, 8160, 0⟩ 8152 ∧ ¬ CommitSound s ⟨32, 8160, 0⟩ 8153 := by
  have hindices : (follow act Fits (start fun _ => 0) usedRing).map (fun s => (s.head, s.tail)) =
      some (32, 16) := by decide +kernel
  obtain ⟨s, hs, hpair⟩ := Option.map_eq_some_iff.mp hindices
  obtain ⟨hhead, htail⟩ := Prod.mk.inj hpair
  have hgrant : writeRequestMax s.head s.tail 1024 = some ⟨32, 8160, 0⟩ := by
    rw [hhead, htail]
    decide
  have hiff := commitSound_iff_fits (fun _ => 0) s (runsTo_follow act Fits RunsTo.refl hs) 1024
    ⟨32, 8160, 0⟩ hgrant
  rw [hhead, htail] at hiff
  refine ⟨s, hs, hgrant, (hiff 8152).mpr (by decide), fun hsound => ?_⟩
  exact absurd ((hiff 8153).mp hsound) (by decide)

/-- On the empty ring a datagram of the reported 8191 bytes runs over the end. -/
theorem maximum_runs_over :
    ¬ ∀ (buf : ℕ → Byte) (s : Machine), RunsTo (Steps act) Fits (start buf) s →
      ∀ (minimum : Size) (grant : Grant), writeRequestMax s.head s.tail minimum = some grant →
        ∀ written, written ≤ grant.rsvd → CommitSound s grant written := by
  intro h
  have hsound := h (fun _ => 0) (start fun _ => 0) RunsTo.refl 1024 ⟨0, 8191, 0⟩ (by decide) 8191
    (by decide)
  exact absurd (hsound.inside 8198 (Or.inl (by decide))) (by decide)

end Osc2FtdiDmx.RingGrant
