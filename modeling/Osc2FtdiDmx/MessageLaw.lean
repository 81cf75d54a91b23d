import Osc2FtdiDmx.MessageEncoding
import Osc2FtdiDmx.TreeWalk

/-! What a well-formed message does to the slots. The walk over the tree and the
cursor over the arguments advance together: each visited pair takes one argument
until they run out. -/
namespace Osc2FtdiDmx.MessageLaw
open BytesEndian OscMemory OscReader ReaderSpecs MessageEncoding SlotStore OscTree TreeWalk

/-- The byte that an argument carries; only int32 arguments carry one. -/
def level : Argument → Option Byte
  | .int32 v => some (v.setWidth 8)
  | _ => none

def lastLevel (args : List Argument) : Option Byte := (args.filterMap level).getLast?

/-- The cell of a pair that was set to a byte, or cleared. -/
def cellOf : Option Byte → Bool × Byte
  | some v => (true, v)
  | none => (false, 0)

/-- What the next call of `_priority` writes if it takes no argument. -/
def held (state : State) : Option Byte := if state.curSet then some state.curValue else none

def Cursor (m : Memory) (state : State) (args : List Argument) : Prop :=
  ∃ arg, state.curArg = some arg ∧ AtArgs m state.curReader arg args

lemma lastLevel_succ (args : List Argument) (k : ℕ) :
    lastLevel (args.take (k + 1)) =
      ((args.drop k).head?.bind level).or (lastLevel (args.take k)) := by
  have hone (a : Option Argument) : (a.toList.filterMap level).getLast? = a.bind level := by
    cases a with
    | none => rfl
    | some a => cases h : level a <;> simp [h]
  rw [lastLevel, List.take_add_one, List.filterMap_append, List.getLast?_append, hone,
    List.head?_drop, lastLevel]

/-- With int32 arguments only, they are used in order and the last one repeats. -/
lemma lastLevel_ints (vs : List (BitVec 32)) (k : ℕ) :
    lastLevel ((vs.map Argument.int32).take (k + 1)) =
      vs[min k (vs.length - 1)]?.map (BitVec.setWidth 8) := by
  have hlevels : ∀ xs : List (BitVec 32),
      (xs.map Argument.int32).filterMap level = xs.map (BitVec.setWidth 8) := by
    intro xs
    induction xs with
    | nil => rfl
    | cons v xs ih => simp [level, ih]
  rw [← List.map_take, lastLevel, hlevels, List.getLast?_map, List.getLast?_take, if_neg (by omega),
    List.getLast?_eq_getElem?, Nat.add_sub_cancel]
  by_cases hk : k < vs.length
  · rw [List.getElem?_eq_getElem hk, min_eq_left (by omega), List.getElem?_eq_getElem hk]
    rfl
  · rw [List.getElem?_eq_none (by omega), min_eq_right (by omega)]
    rfl

section Arguments
variable {m : Memory} {state : State} {arg : Arg} {a : Argument} {args : List Argument}

/-- The state after an argument was looked at that carries the given byte, if any. -/
def hold (state : State) : Option Byte → State
  | some v => { state with curValue := v, curSet := true }
  | none => state

lemma held_hold (state : State) (v : Option Byte) : held (hold state v) = v.or (held state) := by
  cases v <;> rfl

lemma hold_slots (state : State) (v : Option Byte) : (hold state v).slots = state.slots := by
  cases v <;> rfl

lemma hold_curChannel (state : State) (v : Option Byte) :
    (hold state v).curChannel = state.curChannel := by
  cases v <;> rfl

lemma takeArg_cons (harg : state.curArg = some arg)
    (hat : AtArgs m state.curReader arg (a :: args)) :
    ∃ arg' r', AtArgs m r' arg' args ∧
      takeArg m state =
        .ok { hold state (level a) with curArg := some arg', curReader := r' } := by
  obtain ⟨arg', r', hnext, hat'⟩ := hat.next
  refine ⟨arg', r', hat', ?_⟩
  simp only [takeArg, harg, hat.isEnd_cons, hat.load_type, ok_bind, OscType.ofChar_toChar]
  cases a with
  | int32 v => simp [Argument.type, level, hold, hnext, hat.current v args rfl]
  | _ => simp [Argument.type, level, hold, hnext]

lemma takeArg_cursor (h : Cursor m state args) :
    ∃ state', takeArg m state = .ok state' ∧ Cursor m state' args.tail ∧
      held state' = (args.head?.bind level).or (held state) ∧
      state'.slots = state.slots ∧ state'.curChannel = state.curChannel := by
  obtain ⟨arg, harg, hat⟩ := h
  cases args with
  | nil =>
    refine ⟨state, ?_, ⟨arg, harg, hat⟩, by simp, rfl, rfl⟩
    simp only [takeArg, harg, hat.isEnd_nil, ok_bind]
    rfl
  | cons a args =>
    obtain ⟨arg', r', hat', htake⟩ := takeArg_cons harg hat
    exact ⟨_, htake, ⟨arg', rfl, hat'⟩, held_hold _ _, hold_slots _ _, hold_curChannel _ _⟩

/-- One call of `_priority` takes one argument and writes the cell of its pair. -/
lemma priority_cell {c : Fin 512} (p : Fin 32) (hc : state.curChannel = BitVec.ofNat 16 c)
    (h : Cursor m state args) :
    ∃ state', priority m p state = .ok state' ∧ Cursor m state' args.tail ∧
      held state' = (args.head?.bind level).or (held state) ∧
      state'.curChannel = state.curChannel ∧
      ∀ k, cell state'.slots k = if k = (c, p) then cellOf (held state') else cell state.slots k := by
  obtain ⟨state₁, htake, hcursor, hheld, hslots, hchan⟩ := takeArg_cursor h
  have hchan₁ : state₁.curChannel.toNat = c := by
    rw [hchan, hc, BitVec.toNat_ofNat, Nat.mod_eq_of_lt (by omega)]
  have hprio : (BitVec.ofNat 8 p).toNat = p := by
    rw [BitVec.toNat_ofNat, Nat.mod_eq_of_lt (by omega)]
  have hlt : state₁.curChannel.toNat < 512 := by omega
  have hlt' : (BitVec.ofNat 8 p).toNat < 32 := by omega
  have hfin : (⟨state₁.curChannel.toNat, hlt⟩ : Fin 512) = c := Fin.ext hchan₁
  have hfin' : (⟨(BitVec.ofNat 8 p).toNat, hlt'⟩ : Fin 32) = p := Fin.ext hprio
  simp only [priority, htake, ok_bind, dif_pos hlt, dif_pos hlt', hfin, hfin']
  refine ⟨_, rfl, hcursor, hheld, hchan, fun k => ?_⟩
  rw [← hslots]
  cases hset : state₁.curSet with
  | true => simpa [held, hset, cellOf] using cell_set state₁.slots c p state₁.curValue k
  | false => simpa [held, hset, cellOf] using cell_clr state₁.slots c p k

end Arguments

section Walk
variable {m : Memory} {args : List Argument} {slots : Slots}
variable {done : List (Fin 512 × Fin 32)} {state : State}

/-- Where the walk is after the pairs `done`, from the slots the message found. -/
structure Progress (m : Memory) (args : List Argument) (slots : Slots)
    (done : List (Fin 512 × Fin 32)) (state : State) : Prop where
  cursor : Cursor m state (args.drop done.length)
  held : held state = lastLevel (args.take done.length)
  written : ∀ k pair, done[k]? = some pair →
    cell state.slots pair = cellOf (lastLevel (args.take (k + 1)))
  others : ∀ pair, pair ∉ done → cell state.slots pair = cell slots pair

lemma Progress.visit {c : Fin 512} {p : Fin 32} (h : Progress m args slots done state)
    (hc : state.curChannel = BitVec.ofNat 16 c) (hnew : (c, p) ∉ done) :
    ∃ state', priority m p state = .ok state' ∧ state'.curChannel = state.curChannel ∧
      Progress m args slots (done ++ [(c, p)]) state' := by
  obtain ⟨state', hrun, hcursor, hheld, hchan, hcell⟩ := priority_cell p hc h.cursor
  have hlast : MessageLaw.held state' = lastLevel (args.take (done.length + 1)) := by
    rw [hheld, h.held, lastLevel_succ]
  refine ⟨state', hrun, hchan, ⟨?_, ?_, fun k pair hk => ?_, fun pair hpair => ?_⟩⟩
  · simpa [List.tail_drop] using hcursor
  · simpa using hlast
  · rw [List.getElem?_append] at hk
    split_ifs at hk with hlt
    · have hne : pair ≠ (c, p) := by
        rintro rfl
        exact hnew (List.mem_of_getElem? hk)
      rw [hcell, if_neg hne, h.written k pair hk]
    · obtain ⟨hone, rfl⟩ := List.getElem?_eq_some_iff.mp hk
      have hk' : k = done.length := by
        rw [List.length_singleton] at hone
        omega
      rw [List.getElem_singleton, hcell, if_pos rfl, hlast, hk']
  · rw [List.mem_append, List.mem_singleton, not_or] at hpair
    rw [hcell, if_neg hpair.2, h.others pair hpair.1]

lemma Progress.row {c : Fin 512} (prios : List (Fin 32)) (h : Progress m args slots done state)
    (hc : state.curChannel = BitVec.ofNat 16 c) (hnew : (done ++ prios.map (c, ·)).Nodup) :
    ∃ state', visitRow m prios state = .ok state' ∧
      Progress m args slots (done ++ prios.map (c, ·)) state' := by
  induction prios generalizing done state with
  | nil => exact ⟨state, rfl, by simpa using h⟩
  | cons p prios ih =>
    rw [List.map_cons] at hnew ⊢
    have hpair : (c, p) ∉ done := fun hmem =>
      (List.nodup_middle.mp hnew).notMem (List.mem_append_left _ hmem)
    obtain ⟨state₁, hrun, hchan, h₁⟩ := h.visit hc hpair
    rw [List.append_cons] at hnew ⊢
    obtain ⟨state', hrow, h'⟩ := ih h₁ (hchan.trans hc) hnew
    refine ⟨state', ?_, h'⟩
    rw [visitRow, List.foldlM_cons, hrun]
    exact hrow

lemma Progress.channel (c : Fin 512) (h : Progress m args slots done state) :
    Progress m args slots done (channel c state) := ⟨h.cursor, h.held, h.written, h.others⟩

lemma Progress.rows (chans : List (Fin 512)) (prios : List (Fin 32))
    (h : Progress m args slots done state) (hnew : (done ++ chans ×ˢ prios).Nodup) :
    ∃ state', visitRows m chans prios state = .ok state' ∧
      Progress m args slots (done ++ chans ×ˢ prios) state' := by
  induction chans generalizing done state with
  | nil => exact ⟨state, rfl, by simpa using h⟩
  | cons c chans ih =>
    rw [List.product_cons, ← List.append_assoc] at hnew ⊢
    obtain ⟨state₁, hrow, h₁⟩ := (h.channel c).row prios rfl hnew.of_append_left
    obtain ⟨state', hrows, h'⟩ := ih h₁ hnew
    refine ⟨state', ?_, h'⟩
    rw [visitRows, List.foldlM_cons, hrow]
    exact hrows

end Walk

variable (pm : List Byte → List Byte → Bool)

lemma pathText {m : Memory} {p : Addr} {msg : Message} (h : Placed m p msg.encode) :
    Text m (p + 1) msg.path.chars := by
  have hbelow := h.below
  have hpad : msg.path.chars.length + 2 ≤ msg.pathString.encode.length := by
    rw [CString.length_encode]
    exact le_padLen _
  have hlen : msg.pathString.encode.length ≤ msg.encode.length := by
    rw [Message.encode, List.length_append]
    omega
  have hholds := h.holds
  rw [Message.encode] at hholds
  refine ⟨(msg.pathString.holds hholds).2, msg.path.noNul, ?_⟩
  rw [BitVec.toNat_add]
  change (p.toNat + 1) % _ + _ < _
  omega

/-- The walk over the tree, from the call of the message handler. -/
lemma message_written (msg : Message) (m : Memory) (p : Addr) (state : State)
    (h : Placed m p msg.encode) :
    ∃ state',
      handleOscMessage pm m (readerInitialize p (BitVec.ofNat 64 msg.encode.length))
          (BitVec.ofNat 64 msg.encode.length) state = .ok state' ∧
      (∀ k pair, (visited pm msg.path.chars)[k]? = some pair →
        cell state'.slots pair = cellOf (lastLevel (msg.args.take (k + 1)))) ∧
      ∀ pair, pair ∉ visited pm msg.path.chars → cell state'.slots pair = cell state.slots pair := by
  obtain ⟨arg, r, hbegin, hat, hpath⟩ := messageBegin_over msg (over_readerInit h) rfl
  obtain ⟨chans, prios, hvisited, hwalk⟩ := treesInternal_walk pm m (pathText h)
  have hnodup := visited_nodup pm msg.path.chars
  rw [hvisited] at hnodup ⊢
  have hstart : Progress m msg.args state.slots [] ⟨0, 0, false, r, some arg, state.slots⟩ :=
    ⟨⟨arg, rfl, hat⟩, rfl, by simp, by simp⟩
  obtain ⟨state', hrun, hdone⟩ := hstart.rows chans prios hnodup
  refine ⟨state', ?_, hdone.written, hdone.others⟩
  simp only [handleOscMessage, hbegin, ok_bind, readerMatch, hpath]
  rw [← hrun]
  exact hwalk _

/-- A well-formed message writes the cells of the pairs that its path addresses and no
other: the pair number `k` gets the last byte among the first `k + 1` arguments, or is
cleared if there is none. -/
theorem message_law (msg : Message) (m : Memory) (p : Addr) (state : State)
    (h : Placed m p msg.encode) :
    ∃ state',
      handleOscMessage pm m (readerInitialize p (BitVec.ofNat 64 msg.encode.length))
          (BitVec.ofNat 64 msg.encode.length) state = .ok state' ∧
      (∀ k pair, (visited pm msg.path.chars)[k]? = some pair →
        cell state'.slots pair = cellOf (lastLevel (msg.args.take (k + 1)))) ∧
      (∀ pair, pair ∉ visited pm msg.path.chars → cell state'.slots pair = cell state.slots pair) ∧
      ∀ vs : List (BitVec 32), msg.args = vs.map .int32 →
        ∀ k pair, (visited pm msg.path.chars)[k]? = some pair →
          cell state'.slots pair = cellOf (vs[min k (vs.length - 1)]?.map (BitVec.setWidth 8)) := by
  obtain ⟨state', hrun, hwritten, hothers⟩ := message_written pm msg m p state h
  refine ⟨state', hrun, hwritten, hothers, fun vs hvs k pair hk => ?_⟩
  rw [hwritten k pair hk, hvs, lastLevel_ints]

/-- The component `[1-3]`. -/
def oneToThree : List Byte := [0x5b, 0x31, 0x2d, 0x33, 0x5d]

/-- Literal names, and the one range above. -/
def rangeMatch (comp name : List Byte) : Bool :=
  comp == name || (comp == oneToThree && [[0x31], [0x32], [0x33]].contains name)

/-- `/dmx/[1-3]/7` with three arguments, of which the second carries no byte. -/
def threeChannels : Message where
  path := ⟨dmxName ++ slash :: (oneToThree ++ [slash, 0x37]), by decide⟩
  args := [.int32 5, .string ⟨[0x61], by decide⟩, .int32 0x1ff]

lemma threeChannels_visited :
    visited rangeMatch threeChannels.path.chars = [(1, 7), (2, 7), (3, 7)] := by
  decide +kernel

/-- What an earlier message left behind. -/
def usedState : State := ⟨7, 9, true, ⟨0, 0, 0⟩, none, Slots.zero⟩

theorem message_law_threeChannels :
    ∃ state',
      handleOscMessage rangeMatch (image 0x1000 threeChannels.encode) ⟨0x1000, 0x1000, 0x1024⟩ 36
          usedState = .ok state' ∧
      cell state'.slots (1, 7) = (true, 5) ∧ cell state'.slots (2, 7) = (true, 5) ∧
      cell state'.slots (3, 7) = (true, 0xff) ∧ cell state'.slots (7, 0) = (false, 0) := by
  obtain ⟨state', hrun, hcell, hother, -⟩ := message_law rangeMatch threeChannels
    (image 0x1000 threeChannels.encode) 0x1000 usedState (placed_image (by decide))
  rw [threeChannels_visited] at hcell hother
  exact ⟨state', hrun, hcell 0 _ rfl, hcell 1 _ rfl, hcell 2 _ rfl, hother (7, 0) (by decide)⟩

end Osc2FtdiDmx.MessageLaw
