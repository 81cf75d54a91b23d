import Osc2FtdiDmx.VarchunkRing
import Osc2FtdiDmx.TransitionRuns

/-! The receive ring between the input thread and `_beat`, step by step: every load or
store of `head` and `tail`, every byte stored and every member or byte read is one
step, and the steps of the two threads interleave freely. -/
namespace Osc2FtdiDmx.VarchunkThreads
open BytesEndian CircularBuffer VarchunkRing TransitionRuns

/-- A published chunk, with the length of the gap element in front of it or 0. -/
structure Entry where
  gap : ℕ
  data : List Byte
  deriving DecidableEq, Repr

def Entry.width (e : Entry) : ℕ := e.gap + 8 + pad8 e.data.length

def total (queue : List Entry) : ℕ := (queue.map Entry.width).sum

/-- The input thread: between calls, with a granted pointer (and the `minimum` and the
`tail` it was granted for), or inside `varchunk_write_advance`. -/
inductive Producer
  | idle
  | granted (minimum tail : Size) (grant : Grant)
  | publishing (stores : List (ℕ × Byte)) (newHead : Size) (entry : Entry)

/-- The `_beat` thread: between calls, inside `varchunk_read_request`, reading the bytes
of the chunk, with the whole chunk, or inside `varchunk_read_advance`. -/
inductive Consumer
  | idle
  | gapCheck
  | skipGap
  | sizeRead (off : Size)
  | reading (off : Size) (size : BitVec 32) (got : List Byte)
  | holding
  | advancing (newTail : Size)

/-- `buf`, `head` and `tail` are shared. The last four fields are the history: the
chunks published and not yet released, all packets committed, all packets obtained,
and the number of packets released. -/
structure Machine where
  buf : ℕ → Byte
  head : Size
  tail : Size
  producer : Producer
  consumer : Consumer
  queue : List Entry
  committed : List (List Byte)
  obtained : List (List Byte)
  released : ℕ

/-- The ring after `varchunk_new`; its buffer is not initialised. -/
def start (buf : ℕ → Byte) : Machine := ⟨buf, 0, 0, .idle, .idle, [], [], [], 0⟩

inductive Act
  | request (minimum : Size)
  | store (i : ℕ) (b : Byte)
  | commit (written : Size)
  | putByte
  | publish
  | readRequest
  | checkGap
  | skipGap
  | readSize
  | readByte
  | readDone
  | readAdvance
  | release

def skipHead : List Entry → List Entry
  | [] => []
  | e :: es => { e with gap := 0 } :: es

/-- One step, where it is enabled; `commit` is disabled where its assertion fails. -/
def act (s : Machine) : Act → Option Machine
  | .request minimum =>
      match s.producer with
      | .publishing _ _ _ => none
      | _ =>
          match writeRequestMax s.head s.tail minimum with
          | some grant => some { s with producer := .granted minimum s.tail grant }
          | none => some { s with producer := .idle }
  | .store i b =>
      match s.producer with
      | .granted _ _ grant =>
          some { s with buf := Function.update s.buf (grant.start.toNat + 8 + i) b }
      | _ => none
  | .commit written =>
      match s.producer with
      | .granted _ _ grant =>
          if written ≤ grant.rsvd then
            let entry : Entry :=
              ⟨grant.gapd.toNat, readRun s.buf (grant.start.toNat + 8) written.toNat⟩
            some { s with
              producer := .publishing (advanceStores s.head grant.gapd written)
                (advanceHead s.head grant.gapd written) entry }
          else none
      | _ => none
  | .putByte =>
      match s.producer with
      | .publishing (store :: stores) newHead entry =>
          some { s with
            buf := Function.update s.buf store.1 store.2
            producer := .publishing stores newHead entry }
      | _ => none
  | .publish =>
      match s.producer with
      | .publishing [] newHead entry =>
          some { s with
            head := newHead
            producer := .idle
            queue := s.queue ++ [entry]
            committed := s.committed ++ [entry.data] }
      | _ => none
  | .readRequest =>
      match s.consumer with
      | .idle =>
          let space := readSpace s.head s.tail
          if 0 < space then
            if ringSize < s.tail + space then some { s with consumer := .gapCheck }
            else some { s with consumer := .sizeRead s.tail }
          else some s
      | _ => none
  | .checkGap =>
      match s.consumer with
      | .gapCheck =>
          if readWord s.buf (s.tail.toNat + 4) ≠ 0 then some { s with consumer := .skipGap }
          else some { s with consumer := .sizeRead s.tail }
      | _ => none
  | .skipGap =>
      match s.consumer with
      | .skipGap =>
          some { s with
            tail := readAdvanceRaw s.tail (ringSize - s.tail)
            consumer := .sizeRead 0
            queue := skipHead s.queue }
      | _ => none
  | .readSize =>
      match s.consumer with
      | .sizeRead off => some { s with consumer := .reading off (readWord s.buf off.toNat) [] }
      | _ => none
  | .readByte =>
      match s.consumer with
      | .reading off size got =>
          if got.length < size.toNat then
            let b := s.buf (off.toNat + 8 + got.length)
            some { s with consumer := .reading off size (got ++ [b]) }
          else none
      | _ => none
  | .readDone =>
      match s.consumer with
      | .reading _ size got =>
          if got.length = size.toNat then
            some { s with consumer := .holding, obtained := s.obtained ++ [got] }
          else none
      | _ => none
  | .readAdvance =>
      match s.consumer with
      | .holding =>
          some { s with consumer := .advancing (readAdvanceTail s.tail (readWord s.buf s.tail.toNat)) }
      | _ => none
  | .release =>
      match s.consumer with
      | .advancing newTail =>
          some { s with
            tail := newTail
            consumer := .idle
            queue := s.queue.tail
            released := s.released + 1 }
      | _ => none

/-- A request leaves the producer with a grant, or without. -/
lemma act_request {s s' : Machine} {minimum : Size} (h : act s (.request minimum) = some s') :
    (∃ grant, writeRequestMax s.head s.tail minimum = some grant ∧
      s' = { s with producer := .granted minimum s.tail grant }) ∨
      s' = { s with producer := .idle } := by
  cases hgrant : writeRequestMax s.head s.tail minimum with
  | none =>
    cases hp : s.producer <;> simp only [act, hp, hgrant] at h <;> cases h <;> exact Or.inr rfl
  | some grant =>
    cases hp : s.producer <;> simp only [act, hp, hgrant] at h <;> cases h <;>
      exact Or.inl ⟨grant, rfl, rfl⟩

section Steps
variable {s s' : Machine}

lemma act_store {i : ℕ} {b : Byte} (h : act s (.store i b) = some s') :
    ∃ minimum tail grant, s.producer = .granted minimum tail grant ∧
      s' = { s with buf := Function.update s.buf (grant.start.toNat + 8 + i) b } := by
  cases hp : s.producer with
  | granted minimum tail grant =>
    simp only [act, hp, Option.some.injEq] at h
    exact ⟨minimum, tail, grant, rfl, h.symm⟩
  | _ => simp [act, hp] at h

lemma act_commit {written : Size} (h : act s (.commit written) = some s') :
    ∃ minimum tail grant, s.producer = .granted minimum tail grant ∧ written ≤ grant.rsvd ∧
      s' = { s with
        producer := .publishing (advanceStores s.head grant.gapd written)
          (advanceHead s.head grant.gapd written)
          ⟨grant.gapd.toNat, readRun s.buf (grant.start.toNat + 8) written.toNat⟩ } := by
  cases hp : s.producer with
  | granted minimum tail grant =>
    simp only [act, hp, Option.ite_none_right_eq_some, Option.some.injEq] at h
    exact ⟨minimum, tail, grant, rfl, h.1, h.2.symm⟩
  | _ => simp [act, hp] at h

lemma act_putByte (h : act s .putByte = some s') : ∃ store stores newHead entry,
    s.producer = .publishing (store :: stores) newHead entry ∧
      s' = { s with
        buf := Function.update s.buf store.1 store.2
        producer := .publishing stores newHead entry } := by
  rcases hp : s.producer with _ | _ | ⟨_ | ⟨store, stores⟩, newHead, entry⟩
  case publishing.cons =>
    simp only [act, hp, Option.some.injEq] at h
    exact ⟨store, stores, newHead, entry, rfl, h.symm⟩
  all_goals simp [act, hp] at h

lemma act_publish (h : act s .publish = some s') : ∃ newHead entry,
    s.producer = .publishing [] newHead entry ∧
      s' = { s with
        head := newHead
        producer := .idle
        queue := s.queue ++ [entry]
        committed := s.committed ++ [entry.data] } := by
  rcases hp : s.producer with _ | _ | ⟨_ | ⟨store, stores⟩, newHead, entry⟩
  case publishing.nil =>
    simp only [act, hp, Option.some.injEq] at h
    exact ⟨newHead, entry, rfl, h.symm⟩
  all_goals simp [act, hp] at h

lemma act_readRequest (h : act s .readRequest = some s') : s.consumer = .idle ∧
    (¬ 0 < readSpace s.head s.tail ∧ s' = s ∨
      0 < readSpace s.head s.tail ∧ ringSize < s.tail + readSpace s.head s.tail ∧
        s' = { s with consumer := .gapCheck } ∨
      0 < readSpace s.head s.tail ∧ ¬ ringSize < s.tail + readSpace s.head s.tail ∧
        s' = { s with consumer := .sizeRead s.tail }) := by
  cases hc : s.consumer with
  | idle =>
    simp only [act, hc] at h
    split_ifs at h with hspace hwrap
    · exact ⟨rfl, Or.inr (Or.inl ⟨hspace, hwrap, (Option.some.inj h).symm⟩)⟩
    · exact ⟨rfl, Or.inr (Or.inr ⟨hspace, hwrap, (Option.some.inj h).symm⟩)⟩
    · exact ⟨rfl, Or.inl ⟨hspace, (Option.some.inj h).symm⟩⟩
  | _ => simp [act, hc] at h

lemma act_checkGap (h : act s .checkGap = some s') : s.consumer = .gapCheck ∧
    (readWord s.buf (s.tail.toNat + 4) ≠ 0 ∧ s' = { s with consumer := .skipGap } ∨
      readWord s.buf (s.tail.toNat + 4) = 0 ∧ s' = { s with consumer := .sizeRead s.tail }) := by
  cases hc : s.consumer with
  | gapCheck =>
    simp only [act, hc] at h
    split_ifs at h with hflag
    · exact ⟨rfl, Or.inl ⟨hflag, (Option.some.inj h).symm⟩⟩
    · exact ⟨rfl, Or.inr ⟨not_not.mp hflag, (Option.some.inj h).symm⟩⟩
  | _ => simp [act, hc] at h

lemma act_skipGap (h : act s .skipGap = some s') : s.consumer = .skipGap ∧
    s' = { s with
      tail := readAdvanceRaw s.tail (ringSize - s.tail)
      consumer := .sizeRead 0
      queue := skipHead s.queue } := by
  cases hc : s.consumer with
  | skipGap =>
    simp only [act, hc, Option.some.injEq] at h
    exact ⟨rfl, h.symm⟩
  | _ => simp [act, hc] at h

lemma act_readSize (h : act s .readSize = some s') : ∃ off, s.consumer = .sizeRead off ∧
    s' = { s with consumer := .reading off (readWord s.buf off.toNat) [] } := by
  cases hc : s.consumer with
  | sizeRead off =>
    simp only [act, hc, Option.some.injEq] at h
    exact ⟨off, rfl, h.symm⟩
  | _ => simp [act, hc] at h

lemma act_readByte (h : act s .readByte = some s') : ∃ off size got,
    s.consumer = .reading off size got ∧ got.length < size.toNat ∧
      s' = { s with
        consumer := .reading off size (got ++ [s.buf (off.toNat + 8 + got.length)]) } := by
  cases hc : s.consumer with
  | reading off size got =>
    simp only [act, hc, Option.ite_none_right_eq_some, Option.some.injEq] at h
    exact ⟨off, size, got, rfl, h.1, h.2.symm⟩
  | _ => simp [act, hc] at h

lemma act_readDone (h : act s .readDone = some s') : ∃ off size got,
    s.consumer = .reading off size got ∧ got.length = size.toNat ∧
      s' = { s with consumer := .holding, obtained := s.obtained ++ [got] } := by
  cases hc : s.consumer with
  | reading off size got =>
    simp only [act, hc, Option.ite_none_right_eq_some, Option.some.injEq] at h
    exact ⟨off, size, got, rfl, h.1, h.2.symm⟩
  | _ => simp [act, hc] at h

lemma act_readAdvance (h : act s .readAdvance = some s') : s.consumer = .holding ∧
    s' = { s with
      consumer := .advancing (readAdvanceTail s.tail (readWord s.buf s.tail.toNat)) } := by
  cases hc : s.consumer with
  | holding =>
    simp only [act, hc, Option.some.injEq] at h
    exact ⟨rfl, h.symm⟩
  | _ => simp [act, hc] at h

lemma act_release (h : act s .release = some s') : ∃ newTail, s.consumer = .advancing newTail ∧
    s' = { s with
      tail := newTail
      consumer := .idle
      queue := s.queue.tail
      released := s.released + 1 } := by
  cases hc : s.consumer with
  | advancing newTail =>
    simp only [act, hc, Option.some.injEq] at h
    exact ⟨newTail, rfl, h.symm⟩
  | _ => simp [act, hc] at h

/-- The steps of the thread that reads. -/
def Act.OfReader : Act → Prop
  | .readRequest | .checkGap | .skipGap | .readSize | .readByte | .readDone | .readAdvance
  | .release => True
  | _ => False

/-- What belongs to the producer is left alone by the reader. -/
structure SameProducer (s s' : Machine) : Prop where
  producer : s'.producer = s.producer
  buf : s'.buf = s.buf
  head : s'.head = s.head
  committed : s'.committed = s.committed

lemma act_reader {a : Act} (h : act s a = some s') (ha : a.OfReader) : SameProducer s s' := by
  cases a
  case request | store | commit | putByte | publish => exact ha.elim
  case readRequest =>
    obtain ⟨-, ⟨-, rfl⟩ | ⟨-, -, rfl⟩ | ⟨-, -, rfl⟩⟩ := act_readRequest h
    all_goals exact ⟨rfl, rfl, rfl, rfl⟩
  case checkGap =>
    obtain ⟨-, ⟨-, rfl⟩ | ⟨-, rfl⟩⟩ := act_checkGap h
    all_goals exact ⟨rfl, rfl, rfl, rfl⟩
  case skipGap =>
    obtain ⟨-, rfl⟩ := act_skipGap h
    exact ⟨rfl, rfl, rfl, rfl⟩
  case readSize =>
    obtain ⟨_, -, rfl⟩ := act_readSize h
    exact ⟨rfl, rfl, rfl, rfl⟩
  case readByte =>
    obtain ⟨_, _, _, -, -, rfl⟩ := act_readByte h
    exact ⟨rfl, rfl, rfl, rfl⟩
  case readDone =>
    obtain ⟨_, _, _, -, -, rfl⟩ := act_readDone h
    exact ⟨rfl, rfl, rfl, rfl⟩
  case readAdvance =>
    obtain ⟨-, rfl⟩ := act_readAdvance h
    exact ⟨rfl, rfl, rfl, rfl⟩
  case release =>
    obtain ⟨_, -, rfl⟩ := act_release h
    exact ⟨rfl, rfl, rfl, rfl⟩

end Steps

/-- The offset that a step of the producer stores to. -/
def storesTo (s : Machine) : Act → Option ℕ
  | .store i _ =>
      match s.producer with
      | .granted _ _ grant => some (grant.start.toNat + 8 + i)
      | _ => none
  | .putByte =>
      match s.producer with
      | .publishing (store :: _) _ _ => some store.1
      | _ => none
  | _ => none

/-- The offset lies in the part from `tail` up to `head`. -/
def InUse (head tail : Size) (x : ℕ) : Prop :=
  x < 8192 ∧ (x + 8192 - tail.toNat) % 8192 < (head.toNat + 8192 - tail.toNat) % 8192

/-- The free bytes of the part of the ring that a request of `p` bytes is granted, less
the 8 bytes that keep a full ring from looking empty. -/
def room (h t p : ℕ) : ℕ :=
  if t ≠ 0 ∧ t ≤ h then if p ≤ 8192 - h then 8192 - h else t - 8
  else if t = 0 then 8192 - h - 8 else t - h - 8

/-- `P` holds of the grant that the producer has, if it has one. -/
def WhenGranted (P : Size → Size → Grant → Prop) : Producer → Prop
  | .granted minimum tail grant => P minimum tail grant
  | _ => True

instance (P : Size → Size → Grant → Prop) [∀ minimum tail grant, Decidable (P minimum tail grant)]
    (producer : Producer) : Decidable (WhenGranted P producer) :=
  match producer with
  | .granted minimum tail grant => inferInstanceAs (Decidable (P minimum tail grant))
  | .idle => inferInstanceAs (Decidable True)
  | .publishing _ _ _ => inferInstanceAs (Decidable True)

/-- Only a request changes what the producer has been granted. -/
lemma whenGranted_step {P : Size → Size → Size → Grant → Prop} {s s' : Machine} {a : Act}
    (h : WhenGranted (P s.head) s.producer) (ha : ∀ minimum, a ≠ .request minimum)
    (hstep : act s a = some s') : WhenGranted (P s'.head) s'.producer := by
  cases a
  case request minimum => exact absurd rfl (ha minimum)
  case store i b =>
    obtain ⟨_, _, _, -, rfl⟩ := act_store hstep
    exact h
  case commit written =>
    obtain ⟨_, _, _, -, -, rfl⟩ := act_commit hstep
    trivial
  case putByte =>
    obtain ⟨_, _, _, _, -, rfl⟩ := act_putByte hstep
    trivial
  case publish =>
    obtain ⟨_, _, -, rfl⟩ := act_publish hstep
    trivial
  all_goals
    have hsame := act_reader hstep trivial
    rw [hsame.head, hsame.producer]
    exact h

/-- A chunk of `n` bytes fits, with header and padding, in the room that was granted. -/
def FitsGrant (s : Machine) (n : ℕ) : Prop :=
  WhenGranted (fun minimum tail _ =>
    8 + pad8 n ≤ room s.head.toNat tail.toNat (padded minimum)) s.producer

lemma fitsGrant_granted {s : Machine} {minimum tail : Size} {grant : Grant}
    (h : s.producer = .granted minimum tail grant) (n : ℕ) :
    FitsGrant s n ↔ 8 + pad8 n ≤ room s.head.toNat tail.toNat (padded minimum) := by
  rw [FitsGrant, h]
  rfl

/-- The bytes stored and the chunk committed fit. -/
def Fits (s : Machine) : Act → Prop
  | .store i _ => FitsGrant s (i + 1)
  | .commit written => FitsGrant s written.toNat
  | _ => True

instance (s : Machine) (a : Act) : Decidable (Fits s a) :=
  match a with
  | .store _ _ | .commit _ => inferInstanceAs (Decidable (WhenGranted _ _))
  | .request _ | .putByte | .publish | .readRequest | .checkGap | .skipGap | .readSize | .readByte
  | .readDone | .readAdvance | .release => inferInstanceAs (Decidable True)

/-- No more bytes are stored and committed than were asked for; a request is for less
than 4 GiB, as `VARCHUNK_PAD` needs. -/
def AsRequested (s : Machine) : Act → Prop
  | .request minimum => minimum.toNat + 7 < 2 ^ 32
  | .store i _ => WhenGranted (fun minimum _ _ => i < minimum.toNat) s.producer
  | .commit written => WhenGranted (fun minimum _ _ => written ≤ minimum) s.producer
  | _ => True

instance (s : Machine) (a : Act) : Decidable (AsRequested s a) :=
  match a with
  | .request _ => inferInstanceAs (Decidable (_ < _))
  | .store _ _ => inferInstanceAs (Decidable (WhenGranted _ _))
  | .commit _ => inferInstanceAs (Decidable (WhenGranted _ _))
  | .putByte | .publish | .readRequest | .checkGap | .skipGap | .readSize | .readByte
  | .readDone | .readAdvance | .release => inferInstanceAs (Decidable True)

end Osc2FtdiDmx.VarchunkThreads
