import Osc2FtdiDmx.PacketSurroundings
import Osc2FtdiDmx.TreeWalk
import Osc2FtdiDmx.MessageRefusal

/-! A message among other bytes. The message handler takes one argument for each pair
that the path addresses, so it stays inside the message if the header can be read there
and so many arguments can be taken. -/
namespace Osc2FtdiDmx.MessageSurroundings
open BytesEndian OscMemory OscReader Get SlotStore OscTree TreeWalk PacketSurroundings

section Carries
variable {m m' : Memory} (pm : List Byte → List Byte → Bool)

lemma carries_strchrFrom (hm : Extends m m') (c : Byte) (n : ℕ) (p : Addr) :
    CarriesValue m m' (strchrFrom · c n p) := by
  induction n generalizing p with
  | zero =>
    intro a h
    cases h
  | succ n ih =>
    refine (carries_load hm p).bind fun b => ?_
    split_ifs
    · exact .const _
    · exact .const _
    · exact ih (p + 1)

lemma carries_component (hm : Extends m m') (start : Addr) :
    CarriesValue m m' (component · start) := by
  refine (carries_strchrFrom hm slash _ start).bind fun ptr => ?_
  cases ptr with
  | none =>
    exact (carries_strlen hm start).bind fun n => (carries_loads hm start n).bind fun _ => .const _
  | some p => exact (carries_loads hm start _).bind fun _ => .const _

lemma carries_takeArg (hm : Extends m m') (state : State) :
    CarriesValue m m' (takeArg · state) := by
  unfold takeArg
  cases state.curArg with
  | none => exact .const _
  | some arg =>
    refine (carries_argIsEnd hm state.curReader arg).bind fun stop => ?_
    cases stop with
    | true => exact .const _
    | false =>
      refine (carries_load hm arg.type).bind fun c => ?_
      split <;> exact (carries_argNext hm arg _).bind fun next => .const _

lemma carries_priority (hm : Extends m m') (index : ℕ) (state : State) :
    CarriesValue m m' (priority · index state) := by
  refine (carries_takeArg hm state).bind fun state => ?_
  split_ifs <;> exact .const _

lemma carries_callBranch (hm : Extends m m') (branch : Option Branch) (index : ℕ) (state : State) :
    CarriesValue m m' (callBranch · branch index state) := by
  cases branch with
  | none => exact .const _
  | some branch =>
    cases branch with
    | priority => exact carries_priority hm index state
    | channel => exact .const _

mutual

lemma carries_treeVisit (hm : Extends m m') (ptr : Option Addr) (comp : List Byte) (index : ℕ) :
    ∀ (tree : Tree) (state : State), CarriesValue m m' (treeVisit pm · ptr comp index tree state)
  | .leaf name branch, state => by
    unfold treeVisit
    split_ifs
    · cases ptr with
      | none => exact carries_callBranch hm branch index state
      | some p => exact .const _
    · exact .const _
  | .node name branch trees, state => by
    unfold treeVisit
    split_ifs
    · cases ptr with
      | none => exact carries_callBranch hm branch index state
      | some p =>
        exact (carries_callBranch hm branch index state).bind fun state =>
          (carries_component hm (p + 1)).bind fun res => carries_treesLoop hm _ _ 0 trees state
    · exact .const _

lemma carries_treesLoop (hm : Extends m m') (ptr : Option Addr) (comp : List Byte) (index : ℕ) :
    ∀ (trees : List Tree) (state : State),
      CarriesValue m m' (treesLoop pm · ptr comp index trees state)
  | [], state => by
    unfold treesLoop
    exact .const _
  | tree :: trees, state => by
    unfold treesLoop
    exact (carries_treeVisit hm ptr comp index tree state).bind fun state =>
      carries_treesLoop hm ptr comp (index + 1) trees state

end

lemma carries_treesInternal (hm : Extends m m') (start : Addr) (trees : List Tree) (state : State) :
    CarriesValue m m' (treesInternal pm · start trees state) :=
  (carries_component hm start).bind fun _ => carries_treesLoop pm hm _ _ 0 trees state

lemma carries_readerMatch (hm : Extends m m') (reader : Reader) (len : Addr) (trees : List Tree)
    (state : State) : CarriesValue m m' (readerMatch pm · reader len trees state) := by
  refine (carries_messageBegin hm len reader).bind fun res => ?_
  rcases res with ⟨_ | arg, r⟩
  · intro a h
    cases h
  · exact carries_treesInternal pm hm _ trees state

/-- What the message handler does with the mapped bytes it does with any around them. -/
theorem carries_handleOscMessage (hm : Extends m m') (reader : Reader) (len : Addr)
    (state : State) : CarriesValue m m' (handleOscMessage pm · reader len state) :=
  (carries_messageBegin hm len reader).bind fun _ => carries_readerMatch pm hm reader len treeRoot _

end Carries

section Readable
variable {m : Memory} {state state' : State}

/-- After the current argument `n` more can be read, or they end before that. -/
def Takable (m : Memory) : ℕ → Option Arg → Reader → Prop
  | 0, _, _ => True
  | _ + 1, none, _ => True
  | n + 1, some arg, r =>
      readerArgIsEnd m r arg = .ok true ∨
        readerArgIsEnd m r arg = .ok false ∧
          ∃ next r', readerArgNext arg m r = .ok (next, r') ∧ Takable m n next r'

/-- The header of the message is read, and as many arguments as its path takes. -/
def Readable (pm : List Byte → List Byte → Bool) (m : Memory) (reader : Reader) (len : Addr) :
    Prop :=
  ∃ arg r, readerMessageBegin len m reader = .ok (some arg, r) ∧
    ∀ chars, Text m (arg.path + 1) chars → Takable m (visited pm chars).length (some arg) r

lemma takable_none (n : ℕ) (r : Reader) : Takable m n none r := by
  cases n <;> trivial

lemma takable_end {arg : Arg} {r : Reader} (h : readerArgIsEnd m r arg = .ok true) (n : ℕ) :
    Takable m n (some arg) r := by
  cases n with
  | zero => trivial
  | succ n => exact Or.inl h

/-- What one call of `_priority` does to the current argument and the cursor: nothing after
the last argument, and else it reads the next one. -/
inductive Takes (m : Memory) : Option Arg → Reader → Option Arg → Reader → Prop
  | none {r : Reader} : Takes m none r none r
  | stop {arg : Arg} {r : Reader} : readerArgIsEnd m r arg = .ok true →
      Takes m (some arg) r (some arg) r
  | next {arg : Arg} {r r' : Reader} {next : Option Arg} : readerArgIsEnd m r arg = .ok false →
      readerArgNext arg m r = .ok (next, r') → Takes m (some arg) r next r'

lemma Takes.inv {arg arg' : Option Arg} {r r' : Reader} (h : Takes m arg r arg' r') :
    arg' = arg ∧ r' = r ∨ ∃ a, arg = some a ∧ readerArgIsEnd m r a = .ok false ∧
      readerArgNext a m r = .ok (arg', r') := by
  cases h with
  | none | stop => exact Or.inl ⟨rfl, rfl⟩
  | next hlive hnext => exact Or.inr ⟨_, rfl, hlive, hnext⟩

lemma Takes.live {a : Arg} {arg' : Option Arg} {r r' : Reader} (h : Takes m (some a) r arg' r')
    (hlive : readerArgIsEnd m r a = .ok false) : readerArgNext a m r = .ok (arg', r') := by
  cases h with
  | stop hstop => cases hstop.symm.trans hlive
  | next _ hnext => exact hnext

lemma isEnd_load {arg : Arg} {r : Reader} {b : Bool} (h : readerArgIsEnd m r arg = .ok b) :
    ∃ c, load m arg.type = .ok c := by
  obtain ⟨c, hc, -⟩ := bind_eq_ok.mp h
  exact ⟨c, hc⟩

lemma takeArg_takes (h : takeArg m state = .ok state') :
    Takes m state.curArg state.curReader state'.curArg state'.curReader ∧
      state'.curChannel = state.curChannel := by
  unfold takeArg at h
  split at h
  · next hnone =>
    cases h
    rw [hnone]
    exact ⟨.none, rfl⟩
  · next arg harg =>
    obtain ⟨stop, hstop, h⟩ := bind_eq_ok.mp h
    rw [harg]
    cases stop with
    | true =>
      cases h
      rw [harg]
      exact ⟨.stop hstop, rfl⟩
    | false =>
      obtain ⟨c, hc, h⟩ := bind_eq_ok.mp h
      dsimp only at h
      split at h
      all_goals
        obtain ⟨⟨next, r⟩, hnext, h⟩ := bind_eq_ok.mp h
        cases h
        exact ⟨.next hstop hnext, rfl⟩

lemma takable_takeArg {n : ℕ} (h : Takable m (n + 1) state.curArg state.curReader) :
    ∃ state', takeArg m state = .ok state' := by
  cases harg : state.curArg with
  | none => exact ⟨state, by simp only [takeArg, harg]⟩
  | some arg =>
    rw [harg] at h
    rcases h with hstop | ⟨hstop, next, r, hnext, -⟩
    · exact ⟨state, by simp [takeArg, harg, hstop]⟩
    · obtain ⟨c, hc⟩ := isEnd_load hstop
      simp only [takeArg, harg, hstop, hc, ok_bind, Bool.false_eq_true, if_false]
      split <;> simp [hnext]

lemma Takes.takable {n : ℕ} {arg arg' : Option Arg} {r r' : Reader} (h : Takes m arg r arg' r')
    (htake : Takable m (n + 1) arg r) : Takable m n arg' r' := by
  cases h with
  | none => exact takable_none n _
  | stop hstop => exact takable_end hstop n
  | next hstop hnext =>
    rcases htake with hend | ⟨-, next, r, hnext', htake⟩
    · rw [hstop] at hend
      cases hend
    · rw [hnext] at hnext'
      cases hnext'
      exact htake

lemma Takes.untake {n : ℕ} {arg arg' : Option Arg} {r r' : Reader} (h : Takes m arg r arg' r')
    (htake : Takable m n arg' r') : Takable m (n + 1) arg r := by
  cases h with
  | none => exact takable_none _ _
  | stop hstop => exact takable_end hstop _
  | next hstop hnext => exact Or.inr ⟨hstop, _, _, hnext, htake⟩

lemma priority_takes {index : ℕ} (h : priority m index state = .ok state') :
    Takes m state.curArg state.curReader state'.curArg state'.curReader ∧
      state'.curChannel = state.curChannel := by
  obtain ⟨state₁, htake, h⟩ := bind_eq_ok.mp h
  have htakes := takeArg_takes htake
  split_ifs at h
  all_goals
    cases h
    exact htakes

lemma takable_priority {n : ℕ} (p : Fin 32) (hchan : state.curChannel.toNat < 512)
    (h : Takable m (n + 1) state.curArg state.curReader) :
    ∃ state', priority m p state = .ok state' := by
  obtain ⟨state₁, htake⟩ := takable_takeArg h
  have hchan₁ : state₁.curChannel.toNat < 512 := by rwa [(takeArg_takes htake).2]
  have hprio : (BitVec.ofNat 8 p).toNat < 32 := by
    rw [BitVec.toNat_ofNat, Nat.mod_eq_of_lt (by omega)]
    exact p.isLt
  exact ⟨_, by simp only [priority, htake, ok_bind, dif_pos hchan₁, dif_pos hprio]; rfl⟩

lemma row_taken {n : ℕ} (prios : List (Fin 32)) (hchan : state.curChannel.toNat < 512)
    (h : Takable m (prios.length + n) state.curArg state.curReader) :
    ∃ state', visitRow m prios state = .ok state' ∧
      Takable m n state'.curArg state'.curReader := by
  induction prios generalizing state with
  | nil =>
    rw [List.length_nil, Nat.zero_add] at h
    exact ⟨state, rfl, h⟩
  | cons p prios ih =>
    rw [List.length_cons, Nat.add_right_comm] at h
    obtain ⟨state₁, hrun⟩ := takable_priority p hchan h
    obtain ⟨htakes, hkeep⟩ := priority_takes hrun
    obtain ⟨state', hrow, h'⟩ := ih (by rwa [hkeep]) (htakes.takable h)
    refine ⟨state', ?_, h'⟩
    rw [visitRow, List.foldlM_cons, hrun]
    exact hrow

lemma rows_taken {n : ℕ} (chans : List (Fin 512)) (prios : List (Fin 32))
    (h : Takable m (chans.length * prios.length + n) state.curArg state.curReader) :
    ∃ state', visitRows m chans prios state = .ok state' := by
  induction chans generalizing state with
  | nil => exact ⟨state, rfl⟩
  | cons c chans ih =>
    rw [List.length_cons, Nat.succ_mul, Nat.add_comm (_ * _), Nat.add_assoc] at h
    have hchan : (channel c state).curChannel.toNat < 512 := by
      change (BitVec.ofNat 16 c).toNat < 512
      rw [BitVec.toNat_ofNat, Nat.mod_eq_of_lt (by omega)]
      exact c.isLt
    obtain ⟨state₁, hrow, h₁⟩ := row_taken prios hchan h
    obtain ⟨state', hrows⟩ := ih h₁
    refine ⟨state', ?_⟩
    rw [visitRows, List.foldlM_cons, hrow]
    exact hrows

lemma strlenFrom_some {k n : ℕ} {p : Addr} (hk : p.toNat + k ≤ 2 ^ 64)
    (h : strlenFrom m k p = .ok n) :
    ∃ chars, chars.length = n ∧ Text m p chars := by
  induction k generalizing n p with
  | zero => cases h
  | succ k ih =>
    obtain ⟨b, hb, h⟩ := bind_eq_ok.mp h
    have hmap : m p = some b := by
      cases hp : m p with
      | none => simp [load, hp] at hb
      | some c => simpa [load, hp] using hb
    by_cases hzero : b = 0
    · rw [if_pos hzero] at h
      cases h
      rw [hzero] at hmap
      exact ⟨[], rfl, ⟨hmap, trivial⟩, List.not_mem_nil, by simpa using p.isLt⟩
    · rw [if_neg hzero] at h
      obtain ⟨n, hn, h⟩ := bind_eq_ok.mp h
      cases h
      have hk' : k ≠ 0 := by
        rintro rfl
        cases hn
      have hnext : (p + 1).toNat = p.toNat + 1 := succ_toNat (by omega)
      obtain ⟨chars, rfl, htext⟩ := ih (by omega) hn
      have hbelow := htext.below
      refine ⟨b :: chars, rfl, ⟨hmap, htext.holds⟩, ?_, ?_⟩
      · rw [List.mem_cons, not_or]
        exact ⟨fun heq => hzero heq.symm, htext.noNul⟩
      · rw [List.length_cons]
        omega

/-- Where `strlen` returns there is a string. -/
lemma strlen_some {n : ℕ} {p : Addr} (h : strlen m p = .ok n) :
    ∃ chars, chars.length = n ∧ Text m p chars :=
  strlenFrom_some (by omega) h

lemma text_tail {p : Addr} {b : Byte} {chars : List Byte} (h : Text m p (b :: chars)) :
    Text m (p + 1) chars := by
  have hbelow := h.below
  rw [List.length_cons] at hbelow
  refine ⟨h.holds.2, fun hmem => h.noNul (List.mem_cons_of_mem b hmem), ?_⟩
  rw [BitVec.toNat_add]
  change (p.toNat + 1) % 2 ^ 64 + chars.length < 2 ^ 64
  omega

lemma text_extends {m' : Memory} {p : Addr} {chars : List Byte} (hm : Extends m m')
    (h : Text m p chars) : Text m' p chars := by
  have hholds (q : Addr) (bs : List Byte) (hbs : Holds m q bs) : Holds m' q bs := by
    induction bs generalizing q with
    | nil => trivial
    | cons b bs ih => exact ⟨hm q b hbs.1, ih (q + 1) hbs.2⟩
  exact ⟨hholds p _ h.holds, h.noNul, h.below⟩

lemma text_load {p : Addr} {chars : List Byte} (h : Text m p chars) : ∃ b, load m p = .ok b := by
  cases chars with
  | nil => exact ⟨0, load_holds h.holds⟩
  | cons b chars => exact ⟨b, load_holds h.holds⟩

/-- A string that does not begin with a NUL goes on after its first byte. -/
lemma text_tail_of_load {p : Addr} {b : Byte} {chars : List Byte} (h : Text m p chars)
    (hload : load m p = .ok b) (hb : b ≠ 0) : ∃ rest, Text m (p + 1) rest := by
  cases chars with
  | nil =>
    rw [load_holds h.holds] at hload
    cases hload
    exact absurd rfl hb
  | cons c rest => exact ⟨rest, text_tail h⟩

/-- `lv2_osc_reader_arg_begin` before the first argument: the path and the type string, up to
its comma. -/
def readerArgHead (arg : Arg) (len : Addr) : Get Arg := do
  need len
  let p ← cursor
  let path ← readerGetString
  let type ← readerGetString
  if (← peek (load · type)) ≠ comma then Get.fail else
    pure { arg with endPtr := p + len, path, type }

/-- The header reads the first argument as `_priority` reads the further ones. -/
lemma argBegin_head (arg : Arg) (len : Addr) :
    readerArgBegin arg len = readerArgHead arg len >>= readerArgNext := by
  simp only [readerArgBegin, readerArgHead, bind_bind]
  congr 1
  funext _
  congr 1
  funext p
  congr 1
  funext path
  congr 1
  funext type
  congr 1
  funext c
  split_ifs <;> rfl

/-- The path and the type string were read, and the second begins with a comma. -/
structure Header (m : Memory) (r : Reader) (len : Addr) (arg : Arg) (r' : Reader) : Prop where
  path : arg.path = r.ptr
  text : ∃ path, Text m r.ptr path
  comma : load m arg.type = .ok comma
  types : ∃ types, Text m arg.type types
  stop : arg.endPtr = r.ptr + len
  moved : Moved r r'

lemma argHead_some {arg arg' : Arg} {r r' : Reader} {len : Addr}
    (h : readerArgHead arg len m r = .ok (some arg', r')) : Header m r len arg' r' := by
  obtain ⟨_, r₁, h₁, g₁⟩ := bind_ok_some.mp h
  obtain ⟨p, r₂, h₂, g₂⟩ := bind_ok_some.mp g₁
  obtain ⟨path, r₃, h₃, g₃⟩ := bind_ok_some.mp g₂
  obtain ⟨type, r₄, h₄, g₄⟩ := bind_ok_some.mp g₃
  obtain ⟨c, r₅, h₅, hrest⟩ := bind_ok_some.mp g₄
  obtain ⟨-, rfl⟩ := need_ok_some.mp h₁
  obtain ⟨rfl, rfl⟩ := cursor_ok_some.mp h₂
  obtain ⟨rfl, ⟨n, hpath⟩, hmoved⟩ := string_some h₃
  obtain ⟨rfl, ⟨k, htype⟩, hmoved'⟩ := string_some h₄
  obtain ⟨hc, rfl⟩ := peek_ok_some.mp h₅
  obtain ⟨path, -, hpath⟩ := strlen_some hpath
  obtain ⟨types, -, htypes⟩ := strlen_some htype
  by_cases hcomma : c = comma
  · rw [if_neg (not_not.mpr hcomma)] at hrest
    obtain ⟨rfl, rfl⟩ := pure_ok_some.mp hrest
    rw [hcomma] at hc
    exact ⟨rfl, ⟨path, hpath⟩, hc, ⟨types, htypes⟩, rfl, hmoved.trans hmoved'⟩
  · rw [if_pos hcomma] at hrest
    exact (fail_ne_some hrest).elim

/-- The header of a message, and the first argument behind it. -/
lemma messageBegin_some {arg : Arg} {r r' : Reader} {len : Addr}
    (h : readerMessageBegin len m r = .ok (some arg, r')) :
    arg.path = r.ptr ∧ (∃ path, Text m r.ptr path) ∧ (∃ types, Text m arg.type types) ∧
      Moved r r' := by
  rw [readerMessageBegin, argBegin_head] at h
  obtain ⟨head, r₁, hhead, hnext⟩ := bind_ok_some.mp h
  have header := argHead_some hhead
  obtain ⟨hsame, hmoved⟩ := argRaw_some hnext
  obtain ⟨types, htypes⟩ := header.types
  refine ⟨hsame.path.trans header.path, header.text, ?_, header.moved.trans hmoved⟩
  rw [hsame.type]
  exact text_tail_of_load htypes header.comma (by decide)

/-- What follows the slash of the path. -/
lemma begin_path {arg : Arg} {r r' : Reader} {len : Addr}
    (h : readerMessageBegin len m r = .ok (some arg, r')) (hslash : load m r.ptr = .ok slash) :
    ∃ path, Text m (arg.path + 1) path := by
  obtain ⟨hpath, ⟨path, htext⟩, -, -⟩ := messageBegin_some h
  rw [hpath]
  exact text_tail_of_load htext hslash slash_ne_zero

/-- A message that was handled has a header, and its tree was walked. -/
lemma handled_some {pm : List Byte → List Byte → Bool} {reader : Reader} {len : Addr}
    (h : handleOscMessage pm m reader len state = .ok state') :
    ∃ arg r, readerMessageBegin len m reader = .ok (some arg, r) ∧
      treesInternal pm m (arg.path + 1) treeRoot ⟨0, 0, false, r, some arg, state.slots⟩ =
        .ok state' := by
  obtain ⟨⟨arg, r⟩, hbegin, hmatch⟩ := bind_eq_ok.mp h
  cases arg with
  | none =>
    simp only [readerMatch, hbegin, ok_bind] at hmatch
    cases hmatch
  | some arg =>
    simp only [readerMatch, hbegin, ok_bind] at hmatch
    exact ⟨arg, r, hbegin, hmatch⟩

/-- The message handler reads no other byte than the ones that make the message readable. -/
theorem readable_handled {pm : List Byte → List Byte → Bool} {reader : Reader} {len : Addr}
    (hslash : load m reader.ptr = .ok slash) (h : Readable pm m reader len) (state : State) :
    ∃ state', handleOscMessage pm m reader len state = .ok state' := by
  obtain ⟨arg, r, hbegin, htake⟩ := h
  obtain ⟨chars, hchars⟩ := begin_path hbegin hslash
  obtain ⟨chans, prios, hvisited, hwalk⟩ := treesInternal_walk pm m hchars
  have htake := htake chars hchars
  rw [hvisited, List.length_product] at htake
  obtain ⟨state', hrows⟩ : ∃ state',
      visitRows m chans prios ⟨0, 0, false, r, some arg, state.slots⟩ = .ok state' :=
    rows_taken (n := 0) chans prios htake
  refine ⟨state', ?_⟩
  simp only [handleOscMessage, hbegin, ok_bind, readerMatch]
  rw [← hrows]
  exact hwalk _

end Readable

end Osc2FtdiDmx.MessageSurroundings
