import Osc2FtdiDmx.MessageSurroundings
import Osc2FtdiDmx.MessageEncoding

/-! A message among slashes. A string of the packet that has no end in the packet has none
at all there, and `strlen` runs out of memory. So what the message handler reads with slashes
around the packet, it reads in the packet. -/
namespace Osc2FtdiDmx.SlashSurroundings
open BytesEndian OscMemory OscReader Get ReaderSpecs SlotStore OscTree TreeWalk
open PacketRanges PacketSurroundings MessageSurroundings MessageEncoding

/-- The packet with a slash at every other address. -/
def slashes (base : Addr) (bs : List Byte) : Memory := around base bs fun _ => slash

variable {base : Addr} {bs : List Byte} {p : Addr} {r : Reader}

lemma CarriesValue.back {α : Type} {m m' : Memory} {f : Memory → Except Fault α}
    (hf : CarriesValue m m' f) (h : ∃ a, f m = .ok a) : CarriesValue m' m f := by
  intro b hb
  obtain ⟨a, ha⟩ := h
  rw [hf a ha] at hb
  cases hb
  exact ha

lemma slashes_extends (base : Addr) (bs : List Byte) :
    Extends (image base bs) (slashes base bs) := extends_around base bs _

/-- Outside the packet no byte is NUL. -/
lemma slashes_zero (hlow : base.toNat ≤ p.toNat) (h : load (slashes base bs) p = .ok 0) :
    p.toNat < base.toNat + bs.length := by
  by_contra hhigh
  have hout : bs.length ≤ (p - base).toNat := by
    rw [BitVec.toNat_sub_of_le (BitVec.le_def.mpr hlow)]
    omega
  have hload : load (slashes base bs) p = .ok slash := by
    rw [load, slashes, around, List.getD_eq_default _ _ hout]
  rw [hload] at h
  exact absurd h (by decide)

lemma slashes_strlenFrom {k n : ℕ} (hlow : base.toNat ≤ p.toNat) (hk : p.toNat + k ≤ 2 ^ 64)
    (h : strlenFrom (slashes base bs) k p = .ok n) :
    strlenFrom (image base bs) k p = .ok n ∧ p.toNat + n < base.toNat + bs.length := by
  induction k generalizing n p with
  | zero => cases h
  | succ k ih =>
    obtain ⟨b, hb, h⟩ := bind_eq_ok.mp h
    have hstep (hhigh : p.toNat < base.toNat + bs.length) : load (image base bs) p = .ok b :=
      CarriesValue.back (carries_load (slashes_extends base bs) p) (image_load hlow hhigh) b hb
    by_cases hzero : b = 0
    · rw [if_pos hzero] at h
      cases h
      rw [hzero] at hb hstep
      have hhigh := slashes_zero hlow hb
      exact ⟨by rw [strlenFrom, hstep hhigh, ok_bind, if_pos rfl]; rfl, hhigh⟩
    · rw [if_neg hzero] at h
      obtain ⟨n, hn, h⟩ := bind_eq_ok.mp h
      cases h
      have hk' : k ≠ 0 := by
        rintro rfl
        cases hn
      have hnext : (p + 1).toNat = p.toNat + 1 := succ_toNat (by omega)
      obtain ⟨hlen, hin⟩ := ih (by omega) (by omega) hn
      exact ⟨by rw [strlenFrom, hstep (by omega), ok_bind, if_neg hzero, hlen]; rfl, by omega⟩

lemma back_strlen (hlow : base.toNat ≤ p.toNat) :
    CarriesValue (slashes base bs) (image base bs) (strlen · p) :=
  fun _ h => (slashes_strlenFrom hlow (by omega) h).1

lemma back_string (hlow : base.toNat ≤ r.ptr.toNat) :
    CarriesValue (slashes base bs) (image base bs) (readerGetString · r) := by
  refine (carries_cursor r).andThen fun p r' hp => ?_
  obtain ⟨rfl, rfl⟩ := cursor_ok_some.mp hp
  exact (Carries.peek (back_strlen hlow) _).andThen fun n r' _ =>
    ((carries_need _).bind fun _ => (carries_skip _).bind fun _ => .pure _) r'

lemma back_field {α : Type} {n : ℕ} (f : List Byte → α) (hn : n ≤ 16) (h : Between base bs r) :
    CarriesValue (slashes base bs) (image base bs) (readField n f · r) :=
  CarriesValue.back (carries_readField (slashes_extends base bs) n f r) (image_field f hn h)

lemma back_text (arg : Arg) (value : Addr → ArgValue) (hlow : base.toNat ≤ r.ptr.toNat) :
    CarriesValue (slashes base bs) (image base bs) (readText arg value · r) := by
  refine (back_string hlow).andThen fun p r' hp => ?_
  obtain ⟨rfl, -, -⟩ := string_some hp
  exact (Carries.peek (back_strlen hlow) _).andThen fun _ r' _ => Carries.pure _ r'

lemma back_argRaw (arg : Arg) (h : Between base bs r)
    (htype : ∃ c, load (image base bs) arg.type = .ok c) :
    CarriesValue (slashes base bs) (image base bs) (readerArgRaw arg · r) := by
  have hload : CarriesValue (slashes base bs) (image base bs) (load · arg.type) :=
    CarriesValue.back (carries_load (slashes_extends base bs) _) htype
  refine (Carries.peek hload r).andThen fun c r' hc => ?_
  obtain ⟨-, rfl⟩ := peek_ok_some.mp hc
  cases OscType.ofChar c with
  | none => exact Carries.pure _ _
  | some t =>
    cases t with
    | int32 | float =>
      exact (back_field (n := 4) _ (by omega) h).andThen fun _ _ _ => Carries.pure _ _
    | int64 | double | timetag =>
      exact (back_field (n := 8) _ (by omega) h).andThen fun _ _ _ => Carries.pure _ _
    | string => exact back_text arg .s h.lower
    | symbol => exact back_text arg .S h.lower
    | blob =>
      exact CarriesValue.andThen ((back_field (n := 4) _ (by omega) h).andThen fun _ r' _ =>
        ((carries_need _).bind fun _ => carries_cursor.bind fun _ => (carries_skip _).bind fun _ =>
          .pure _) r') fun _ _ _ => Carries.pure _ _
    | true | false | nil | impulse => exact Carries.pure _ _
    | midi => exact (carries_midi _).andThen fun _ _ _ => Carries.pure _ _
    | char =>
      exact CarriesValue.andThen ((back_field (n := 4) _ (by omega) h).andThen fun _ _ _ =>
        Carries.pure _ _) fun _ _ _ => Carries.pure _ _
    | rgba => exact (back_field (n := 4) _ (by omega) h).andThen fun _ _ _ => Carries.pure _ _

/-- The size of a string that ends in the packet does not wrap around. -/
lemma string_between {r' : Reader} (h : Between base bs r)
    (hstr : readerGetString (slashes base bs) r = .ok (some p, r')) : Between base bs r' := by
  obtain ⟨rfl, n, hlen, hneed, rfl⟩ := getString_some hstr
  have hend := (slashes_strlenFrom h.lower (by omega) hlen).2
  have hbelow := h.below
  have hpad : (paddedSize (BitVec.ofNat 64 n + 1)).toNat ≤ n + 4 := by
    rw [strlen_padded (by omega), padLen]
    omega
  exact h.advance (overflow_ok hneed (by omega)).2

lemma back_messageBegin (len : Addr) (h : Between base bs r) :
    CarriesValue (slashes base bs) (image base bs) (readerMessageBegin len · r) := by
  refine (carries_need len r).andThen fun _ r₁ h₁ => ?_
  obtain ⟨-, rfl⟩ := need_ok_some.mp h₁
  refine (carries_cursor r₁).andThen fun p r₂ h₂ => ?_
  obtain ⟨-, rfl⟩ := cursor_ok_some.mp h₂
  refine (back_string h.lower).andThen fun path r₃ h₃ => ?_
  have hpath := string_between h h₃
  refine (back_string hpath.lower).andThen fun type r₄ h₄ => ?_
  have htype := string_between hpath h₄
  obtain ⟨rfl, ⟨n, hlen⟩, -⟩ := string_some (back_string hpath.lower _ h₄)
  obtain ⟨types, -, htext⟩ := strlen_some hlen
  have hfirst : ∃ c, load (image base bs) r₃.ptr = .ok c := text_load htext
  have hload := CarriesValue.back (carries_load (slashes_extends base bs) r₃.ptr) hfirst
  refine (Carries.peek hload r₄).andThen fun c r₅ h₅ => ?_
  obtain ⟨hc, rfl⟩ := peek_ok_some.mp h₅
  by_cases hcomma : c = comma
  · simp only [if_neg (not_not.mpr hcomma)]
    rw [hcomma] at hc
    obtain ⟨rest, hrest⟩ := text_tail_of_load htext (hload _ hc) (by decide)
    exact back_argRaw _ htype (text_load hrest)
  · simp only [if_pos hcomma]
    exact Carries.fail _

/-- No step of the argument cursor goes before the packet. -/
def Onward (base : Addr) (m : Memory) (reader : Reader) (len : Addr) : Prop :=
  ∀ arg r, readerMessageBegin len m reader = .ok (some arg, r) → ∀ x : Option Arg × Reader,
    Relation.ReflTransGen (fun x y => Takes m x.1 x.2 y.1 y.2) (some arg, r) x →
      base.toNat ≤ x.2.ptr.toNat

/-- The current argument is one of the packet, and the cursor does not go before it later. -/
structure Steady (base : Addr) (bs : List Byte) (arg : Option Arg) (r : Reader) : Prop where
  types : ∀ a, arg = some a → ∃ types, Text (image base bs) a.type types
  upper : ∀ a, arg = some a → r.ptr.toNat ≤ r.endPtr.toNat ∧
    r.endPtr.toNat ≤ base.toNat + bs.length
  below : base.toNat + bs.length + 16 < 2 ^ 64
  onward : ∀ x : Option Arg × Reader,
    Relation.ReflTransGen (fun x y => Takes (image base bs) x.1 x.2 y.1 y.2) (arg, r) x →
      base.toNat ≤ x.2.ptr.toNat

lemma Steady.between {a : Arg} (h : Steady base bs (some a) r) : Between base bs r :=
  ⟨h.onward (some a, r) .refl, (h.upper a rfl).1, (h.upper a rfl).2, h.below⟩

lemma isEnd_false {m : Memory} {arg : Arg} (h : readerArgIsEnd m r arg = .ok false) :
    ∃ c, load m arg.type = .ok c ∧ c ≠ 0 := by
  obtain ⟨c, hc, h⟩ := bind_eq_ok.mp h
  refine ⟨c, hc, ?_⟩
  rintro rfl
  cases h

lemma Steady.back_isEnd {a : Arg} (h : Steady base bs (some a) r) :
    CarriesValue (slashes base bs) (image base bs) (readerArgIsEnd · r a) := by
  obtain ⟨types, htypes⟩ := h.types a rfl
  obtain ⟨c, hc⟩ := text_load htypes
  apply CarriesValue.back (carries_argIsEnd (slashes_extends base bs) r a)
  exact ⟨_, by rw [readerArgIsEnd, hc, ok_bind]; rfl⟩

/-- What a call of `_priority` reads among slashes it reads in the packet. -/
lemma Steady.takes {arg arg' : Option Arg} {r' : Reader} (h : Steady base bs arg r)
    (htakes : Takes (slashes base bs) arg r arg' r') :
    Takes (image base bs) arg r arg' r' ∧ Steady base bs arg' r' := by
  cases htakes with
  | none => exact ⟨.none, h⟩
  | stop hstop => exact ⟨.stop (h.back_isEnd _ hstop), h⟩
  | @next a _ _ _ hend hnext =>
    obtain ⟨types, htypes⟩ := h.types a rfl
    have hend' := h.back_isEnd _ hend
    obtain ⟨b, hb, hne⟩ := isEnd_false hend'
    obtain ⟨rest, hrest⟩ := text_tail_of_load htypes hb hne
    have hnext' := back_argRaw { a with type := a.type + 1 } h.between (text_load hrest) _ hnext
    have htakes : Takes (image base bs) (some a) r arg' r' := .next hend' hnext'
    refine ⟨htakes, ⟨fun a' ha => ?_, fun a' ha => ?_, h.below, fun x hx => ?_⟩⟩
    · rw [ha] at hnext'
      obtain ⟨hsame, -⟩ := argRaw_some hnext'
      rw [hsame.type]
      exact ⟨rest, hrest⟩
    · rw [ha] at hnext'
      obtain ⟨-, hstop, hmoved⟩ := argRaw_some hnext'
      have hupper := h.upper a rfl
      rw [hstop]
      refine ⟨?_, hupper.2⟩
      rcases hmoved with rfl | hle
      · exact hupper.1
      · rwa [hstop] at hle
    · exact h.onward x (.head htakes hx)

section Walk
variable {state state' : State} {n : ℕ}

lemma priority_back {index : ℕ} (h : Steady base bs state.curArg state.curReader)
    (hrun : priority (slashes base bs) index state = .ok state') :
    Steady base bs state'.curArg state'.curReader ∧
      (Takable (image base bs) n state'.curArg state'.curReader →
        Takable (image base bs) (n + 1) state.curArg state.curReader) := by
  obtain ⟨htakes, hsteady⟩ := h.takes (priority_takes hrun).1
  exact ⟨hsteady, htakes.untake⟩

lemma row_back (prios : List (Fin 32)) (h : Steady base bs state.curArg state.curReader)
    (hrun : visitRow (slashes base bs) prios state = .ok state') :
    Steady base bs state'.curArg state'.curReader ∧
      (Takable (image base bs) n state'.curArg state'.curReader →
        Takable (image base bs) (prios.length + n) state.curArg state.curReader) := by
  induction prios generalizing state with
  | nil =>
    cases hrun
    rw [List.length_nil, Nat.zero_add]
    exact ⟨h, id⟩
  | cons p prios ih =>
    rw [visitRow, List.foldlM_cons] at hrun
    obtain ⟨state₁, hfirst, hrest⟩ := bind_eq_ok.mp hrun
    have hsteady := (priority_back (n := 0) h hfirst).1
    obtain ⟨hsteady', htake⟩ := ih hsteady hrest
    rw [List.length_cons, Nat.add_right_comm]
    exact ⟨hsteady', fun hn => (priority_back h hfirst).2 (htake hn)⟩

lemma rows_back (chans : List (Fin 512)) (prios : List (Fin 32))
    (h : Steady base bs state.curArg state.curReader)
    (hrun : visitRows (slashes base bs) chans prios state = .ok state') :
    Takable (image base bs) (chans.length * prios.length) state.curArg state.curReader := by
  induction chans generalizing state with
  | nil =>
    rw [List.length_nil, Nat.zero_mul]
    trivial
  | cons c chans ih =>
    rw [visitRows, List.foldlM_cons] at hrun
    obtain ⟨state₁, hrow, hrest⟩ := bind_eq_ok.mp hrun
    have hchan : Steady base bs (channel c state).curArg (channel c state).curReader := h
    have hsteady := (row_back (n := 0) prios hchan hrow).1
    rw [List.length_cons, Nat.succ_mul, Nat.add_comm]
    exact (row_back prios hchan hrow).2 (ih hsteady hrest)

end Walk

/-- A message that is handled among slashes is readable in the packet. -/
theorem slashes_readable {pm : List Byte → List Byte → Bool} {reader : Reader} {len : Addr}
    {state state' : State} (h : Between base bs reader)
    (hslash : load (image base bs) reader.ptr = .ok slash)
    (honward : Onward base (image base bs) reader len)
    (hrun : handleOscMessage pm (slashes base bs) reader len state = .ok state') :
    Readable pm (image base bs) reader len := by
  obtain ⟨arg, r, hbegin, hmatch⟩ := handled_some hrun
  have hbegin' := back_messageBegin len h _ hbegin
  obtain ⟨-, -, htypes, hmoved⟩ := messageBegin_some hbegin'
  refine ⟨arg, r, hbegin', fun chars hchars => ?_⟩
  have hchars' : Text (slashes base bs) (arg.path + 1) chars :=
    text_extends (slashes_extends base bs) hchars
  obtain ⟨chans, prios, hvisited, hwalk⟩ := treesInternal_walk pm _ hchars'
  rw [hwalk] at hmatch
  rw [hvisited, List.length_product]
  have hupper : r.ptr.toNat ≤ r.endPtr.toNat := by
    rcases hmoved.2 with rfl | hle
    · exact h.upper
    · exact hle
  have hsteady : Steady base bs (some arg) r := by
    refine ⟨?_, fun _ _ => ⟨hupper, ?_⟩, h.below, honward arg r hbegin'⟩
    · rintro a ⟨⟩
      exact htypes
    · rw [hmoved.1]
      exact h.stop
  exact rows_back chans prios hsteady hmatch

end Osc2FtdiDmx.SlashSurroundings
