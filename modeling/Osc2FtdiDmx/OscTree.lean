import Osc2FtdiDmx.OscReader
import Osc2FtdiDmx.SlotStore

/-! The method tree of osc2ftdidmx.c and the pattern walk of reader.h over it.
`pm` stands for `lv2_osc_pattern_match`: it gets the path component as a byte
string and a table name. A table entry is known to its callback by its index. -/
namespace Osc2FtdiDmx.OscTree
open BytesEndian OscMemory OscReader SlotStore

inductive Branch
  | priority
  | channel
  deriving DecidableEq, Repr

/-- `LV2_OSC_Tree`. A leaf has `trees == NULL`; a NULL name ends a table. -/
inductive Tree
  | leaf (name : List Byte) (branch : Option Branch)
  | node (name : List Byte) (branch : Option Branch) (trees : List Tree)

structure State where
  curChannel : BitVec 16
  curValue : Byte
  curSet : Bool
  curReader : Reader
  curArg : Option Arg
  slots : Slots

/-- The decimal digits of a table index, as a C string without its terminator. -/
def decimal (n : ℕ) : List Byte := (Nat.toDigits 10 n).map fun c => BitVec.ofNat 8 c.toNat

def dmxName : List Byte := [0x64, 0x6d, 0x78]

def treePriority : List Tree :=
  (List.range 32).map fun i => .leaf (decimal i) (some .priority)

def treeChannel : List Tree :=
  (List.range 512).map fun i => .node (decimal i) (some .channel) treePriority

def treeRoot : List Tree := [.node dmxName none treeChannel]

/-- The first statement of `_priority`: consume the current argument, if any. -/
def takeArg (m : Memory) (state : State) : Except Fault State :=
  match state.curArg with
  | none => .ok state
  | some arg => do
      if ← readerArgIsEnd m state.curReader arg then pure state else
        let c ← load m arg.type
        let state :=
          match OscType.ofChar c with
          | some .int32 => { state with curValue := arg.i.setWidth 8, curSet := true }
          | _ => state
        let (curArg, curReader) ← readerArgNext arg m state.curReader
        pure { state with curArg, curReader }

/-- The callback `_priority`; an index outside `slots` or `data` is out of bounds. -/
def priority (m : Memory) (index : ℕ) (state : State) : Except Fault State := do
  let prio : BitVec 8 := BitVec.ofNat 8 index
  let state ← takeArg m state
  if hc : state.curChannel.toNat < 512 then
    if hp : prio.toNat < 32 then
      let slot := state.slots ⟨_, hc⟩
      let slot :=
        if state.curSet then slotSetVal slot ⟨_, hp⟩ state.curValue
        else slotClrVal slot ⟨_, hp⟩
      pure { state with slots := Function.update state.slots ⟨_, hc⟩ slot }
    else .error .outOfBounds
  else .error .outOfBounds

/-- The callback `_channel`. -/
def channel (index : ℕ) (state : State) : State :=
  { state with curChannel := BitVec.ofNat 16 index }

def callBranch (m : Memory) (branch : Option Branch) (index : ℕ) (state : State) :
    Except Fault State :=
  match branch with
  | none => .ok state
  | some .priority => priority m index state
  | some .channel => .ok (channel index state)

/-- The head of `_lv2_osc_trees_internal`: the separator after the component at
`start`, and the component itself. -/
def component (m : Memory) (start : Addr) : Except Fault (Option Addr × List Byte) := do
  let ptr ← strchr m start slash
  let len ← match ptr with
    | some p => pure (p - start).toNat
    | none => strlen m start
  let comp ← loads m start len
  pure (ptr, comp)

section Walk
variable (pm : List Byte → List Byte → Bool) (m : Memory)

mutual

/-- The loop body of `_lv2_osc_trees_internal` for the entry with the given index. -/
def treeVisit (ptr : Option Addr) (comp : List Byte) (index : ℕ) :
    Tree → State → Except Fault State
  | .leaf name branch, state =>
      if pm comp name then
        match ptr with
        | some _ => .ok state
        | none => callBranch m branch index state
      else .ok state
  | .node name branch trees, state =>
      if pm comp name then
        match ptr with
        | some p => do
            let state ← callBranch m branch index state
            let (ptr', comp') ← component m (p + 1)
            treesLoop ptr' comp' 0 trees state
        | none => callBranch m branch index state
      else .ok state

def treesLoop (ptr : Option Addr) (comp : List Byte) (index : ℕ) :
    List Tree → State → Except Fault State
  | [], state => .ok state
  | tree :: trees, state => do
      let state ← treeVisit ptr comp index tree state
      treesLoop ptr comp (index + 1) trees state

end

/-- `_lv2_osc_trees_internal`. -/
def treesInternal (start : Addr) (trees : List Tree) (state : State) : Except Fault State := do
  let (ptr, comp) ← component m start
  treesLoop pm m ptr comp 0 trees state

/-- `lv2_osc_reader_match` loads `arg->path` without looking at `arg` first. -/
def readerMatch (reader : Reader) (len : Addr) (trees : List Tree) (state : State) :
    Except Fault State := do
  let (arg, _) ← readerMessageBegin len m reader
  match arg with
  | none => .error .nullArg
  | some arg => treesInternal pm m (arg.path + 1) trees state

def handleOscMessage (reader : Reader) (len : Addr) (state : State) : Except Fault State := do
  let state := { state with curChannel := 0, curValue := 0, curSet := false, curReader := reader }
  let (curArg, curReader) ← readerMessageBegin len m state.curReader
  readerMatch pm m reader len treeRoot { state with curArg, curReader }

end Walk

end Osc2FtdiDmx.OscTree
