import Osc2FtdiDmx.RingProducer
import Osc2FtdiDmx.RingConsumer

/-! The invariant of the ring over every interleaving of the two threads, first for
runs whose chunks fit in what was granted, then for runs whose chunks are no larger
than what was asked for. -/
namespace Osc2FtdiDmx.RingRuns
open BytesEndian CircularBuffer VarchunkRing VarchunkThreads TransitionRuns RingInvariant
open RingProducer RingConsumer

variable {s s' : Machine}

def Sound (s : Machine) : Prop := ∃ t, RingInv t s

lemma sound_step (h : Sound s) {a : Act} (hfits : Fits s a) (hstep : act s a = some s') :
    Sound s' := by
  obtain ⟨t, h⟩ := h
  cases a with
  | request minimum => exact ⟨t, request_inv h hstep⟩
  | store i b => exact ⟨t, store_inv h hfits hstep⟩
  | commit written => exact ⟨t, commit_inv h hfits hstep⟩
  | putByte => exact ⟨t, putByte_inv h hstep⟩
  | publish => exact ⟨t, publish_inv h hstep⟩
  | readRequest => exact ⟨t, readRequest_inv h hstep⟩
  | checkGap => exact ⟨t, checkGap_inv h hstep⟩
  | skipGap => exact skipGap_inv h hstep
  | readSize => exact ⟨t, readSize_inv h hstep⟩
  | readByte => exact ⟨t, readByte_inv h hstep⟩
  | readDone => exact ⟨t, readDone_inv h hstep⟩
  | readAdvance => exact ⟨t, readAdvance_inv h hstep⟩
  | release => exact release_inv h hstep

theorem sound_run {buf : ℕ → Byte} (hrun : RunsTo (Steps act) Fits (start buf) s) : Sound s :=
  hrun.invariant ⟨0, ringInv_start buf⟩ fun _ _ _ h hfits hstep => sound_step h hfits hstep

/-- A stored byte goes to a free place of the buffer. -/
lemma storesTo_free (h : Sound s) {a : Act} (hfits : Fits s a) {x : ℕ}
    (hx : storesTo s a = some x) : x < 8192 ∧ ¬ InUse s.head s.tail x := by
  obtain ⟨t, h⟩ := h
  have hproducer := h.producer
  have hfree : ∀ w, t + total s.queue ≤ w → w < t + 8192 → x = w % 8192 →
      x < 8192 ∧ ¬ InUse s.head s.tail x := by
    rintro w hle hlt rfl
    exact ⟨Nat.mod_lt _ (by norm_num), h.not_inUse hle hlt⟩
  cases a <;> simp only [storesTo, reduceCtorEq] at hx
  case store i b =>
    cases hp : s.producer <;> simp only [hp, reduceCtorEq, Option.some.injEq] at hx
    rename_i minimum tail grant
    rw [ProducerAt, hp] at hproducer
    have hroom := (fitsGrant_granted hp (i + 1)).mp hfits
    have hpad := le_pad8 (i + 1)
    have hregion := hproducer.free
    have hstart := hproducer.start
    have hinside := hproducer.inside
    exact hfree (t + total s.queue + grant.gapd.toNat + 8 + i) (by omega) (by omega) (by omega)
  case putByte =>
    rcases hp : s.producer with _ | _ | ⟨_ | ⟨store, stores⟩, newHead, entry⟩ <;>
      simp only [hp, reduceCtorEq, Option.some.injEq] at hx
    rw [ProducerAt, hp] at hproducer
    obtain ⟨-, hbound, -, hstores⟩ := hproducer
    obtain ⟨w, hle, hlt, hoff⟩ := hstores store (by simp)
    exact hfree w hle (by omega) (by omega)

/-- A grant leaves room for what was asked for. -/
lemma padded_le_room {h t p : ℕ} {grant : Grant} (hh : 8 ∣ h) (ht : 8 ∣ t) (hp : 8 ∣ p)
    (hlt : h < 8192) (hshape : GrantShape h t p grant) :
    p ≤ room h t p ∧ p ≤ grant.rsvd.toNat := by
  rw [room]
  cases hshape with
  | first hstart hgapd ht0 hle hfit hrsvd =>
    rw [if_pos ⟨ht0, hle⟩, if_pos hfit]
    omega
  | rest hstart hgapd ht0 hfit hrsvd =>
    rw [if_neg (fun h => h.1 ht0), if_pos ht0]
    omega
  | upTo hstart hgapd hlt hfit hrsvd =>
    rw [if_neg (by omega), if_neg (by omega)]
    omega
  | second hstart hgapd ht0 hle hsmall hfit hrsvd =>
    rw [if_pos ⟨ht0, hle⟩, if_neg (by omega)]
    omega

/-- The grant that the producer has covers the request it made. -/
def Asked (s : Machine) : Prop :=
  WhenGranted (fun minimum tail grant => minimum.toNat + 7 < 2 ^ 32 ∧
    padded minimum ≤ room s.head.toNat tail.toNat (padded minimum) ∧
    padded minimum ≤ grant.rsvd.toNat) s.producer

lemma padded_eq {minimum : Size} (h : minimum.toNat + 7 < 2 ^ 32) :
    padded minimum = 16 + pad8 minimum.toNat := by
  rw [padded, varchunkPad_toNat h]

lemma asked_request (h : Sound s) {minimum : Size} (hmin : minimum.toNat + 7 < 2 ^ 32)
    (hstep : act s (.request minimum) = some s') : Asked s' := by
  obtain ⟨t, h⟩ := h
  have hpadded : 8 ∣ padded minimum := by
    have hpad := dvd_pad8 minimum.toNat
    rw [padded_eq hmin]
    omega
  rcases act_request hstep with ⟨grant, hgrant, rfl⟩ | rfl
  · exact ⟨hmin, padded_le_room h.dvd_head h.dvd_tail hpadded h.head_lt (h.shape hgrant)⟩
  · trivial

lemma asked_step (hs : Sound s) (h : Asked s) {a : Act} (hok : AsRequested s a)
    (hstep : act s a = some s') : Asked s' := by
  by_cases ha : ∃ minimum, a = .request minimum
  · obtain ⟨minimum, rfl⟩ := ha
    exact asked_request hs hok hstep
  · exact whenGranted_step (P := fun head minimum tail grant => minimum.toNat + 7 < 2 ^ 32 ∧
      padded minimum ≤ room head.toNat tail.toNat (padded minimum) ∧
      padded minimum ≤ grant.rsvd.toNat) h (fun minimum heq => ha ⟨minimum, heq⟩) hstep

lemma fits_of_asked (h : Asked s) {a : Act} (hok : AsRequested s a) : Fits s a := by
  cases a <;> try trivial
  case store i b =>
    cases hp : s.producer <;> simp only [Fits, FitsGrant, WhenGranted, AsRequested, Asked, hp]
      at h hok ⊢
    obtain ⟨hmin, hroom, -⟩ := h
    have hmono := pad8_mono (show i + 1 ≤ _ from hok)
    rw [padded_eq hmin] at hroom ⊢
    omega
  case commit written =>
    cases hp : s.producer <;> simp only [Fits, FitsGrant, WhenGranted, AsRequested, Asked, hp]
      at h hok ⊢
    obtain ⟨hmin, hroom, -⟩ := h
    have hmono := pad8_mono (BitVec.le_def.mp hok)
    rw [padded_eq hmin] at hroom ⊢
    omega

theorem asked_run {buf : ℕ → Byte} (hrun : RunsTo (Steps act) AsRequested (start buf) s) :
    Sound s ∧ Asked s :=
  hrun.invariant (P := fun s => Sound s ∧ Asked s) ⟨⟨0, ringInv_start buf⟩, trivial⟩
    fun _ _ _ h hok hstep =>
      ⟨sound_step h.1 (fits_of_asked h.2 hok) hstep, asked_step h.1 h.2 hok hstep⟩

end Osc2FtdiDmx.RingRuns
