import Osc2FtdiDmx.OscTree

/-! The pattern walk over the method tree, reduced to two nested loops over the
matching channels and priorities. -/
namespace Osc2FtdiDmx.TreeWalk
open BytesEndian OscMemory OscReader SlotStore OscTree

/-- A NUL-terminated string in memory. -/
structure Text (m : Memory) (p : Addr) (chars : List Byte) : Prop where
  holds : Holds m p (chars ++ [0])
  noNul : (0 : Byte) ∉ chars
  below : p.toNat + chars.length < 2 ^ 64

section Components
variable {m : Memory} {p : Addr} {chars comp rest : List Byte}

lemma slash_ne_zero : slash ≠ 0 := by decide

lemma component_last (h : Text m p chars) (hslash : slash ∉ chars) :
    component m p = .ok (none, chars) := by
  rw [component, strchr_miss slash_ne_zero hslash h.holds h.below, ok_bind]
  simp only [strlen_holds h.noNul h.holds h.below, ok_bind, loads_holds h.holds]
  rfl

lemma component_head (h : Text m p (comp ++ slash :: rest)) (hslash : slash ∉ comp) :
    ∃ q, component m p = .ok (some q, comp) ∧ Text m (q + 1) rest := by
  have hholds : Holds m p (comp ++ (slash :: (rest ++ [0]))) := by simpa using h.holds
  have hnul : (0 : Byte) ∉ comp ∧ (0 : Byte) ∉ rest := by
    have hnul := h.noNul
    simp only [List.mem_append, List.mem_cons, not_or] at hnul
    exact ⟨hnul.1, hnul.2.2⟩
  have hbelow := h.below
  simp only [List.length_append, List.length_cons] at hbelow
  have hlen : (BitVec.ofNat 64 comp.length).toNat = comp.length := by
    rw [BitVec.toNat_ofNat, Nat.mod_eq_of_lt (by omega)]
  refine ⟨p + BitVec.ofNat 64 comp.length, ?_, (holds_append.mp hholds).2.2, hnul.2, ?_⟩
  · have hdiff : (p + BitVec.ofNat 64 comp.length - p).toNat = comp.length := by
      rw [BitVec.add_comm, BitVec.add_sub_cancel, hlen]
    rw [component, strchr_hit hslash hnul.1 hholds (by omega), ok_bind]
    simp only [hdiff, pure_eq_ok, ok_bind, loads_holds hholds]
  · rw [BitVec.add_assoc, BitVec.toNat_add, BitVec.toNat_add, hlen]
    change (p.toNat + (comp.length + 1) % 2 ^ 64) % 2 ^ 64 + rest.length < 2 ^ 64
    omega

end Components

variable (pm : List Byte → List Byte → Bool)

def channels (comp : List Byte) : List (Fin 512) :=
  (List.finRange 512).filter fun c => pm comp (decimal c)

def priorities (comp : List Byte) : List (Fin 32) :=
  (List.finRange 32).filter fun p => pm comp (decimal p)

/-- The pairs that a path without its leading slash addresses, channel-major. -/
def visited (path : List Byte) : List (Fin 512 × Fin 32) :=
  match path.splitOn slash with
  | [dmx, chan, prio] => if pm dmx dmxName then channels pm chan ×ˢ priorities pm prio else []
  | _ => []

lemma visited_nodup (path : List Byte) : (visited pm path).Nodup := by
  have hproduct (chan prio : List Byte) : (channels pm chan ×ˢ priorities pm prio).Nodup :=
    ((List.nodup_finRange 512).filter _).product ((List.nodup_finRange 32).filter _)
  unfold visited
  split
  · split_ifs
    · exact hproduct _ _
    · exact List.nodup_nil
  · exact List.nodup_nil

variable (m : Memory)

/-- A table is walked from its first entry to its last. -/
lemma treesLoop_zipIdx (ptr : Option Addr) (comp : List Byte) (i : ℕ) (trees : List Tree)
    (state : State) :
    treesLoop pm m ptr comp i trees state =
      (trees.zipIdx i).foldlM (fun s t => treeVisit pm m ptr comp t.2 t.1 s) state := by
  induction trees generalizing i state with
  | nil => simp [treesLoop]
  | cons tree trees ih => simp [treesLoop, ih]

lemma treesLoop_table (ptr : Option Addr) (comp : List Byte) (n : ℕ) (f : ℕ → Tree)
    (state : State) :
    treesLoop pm m ptr comp 0 ((List.range n).map f) state =
      (List.finRange n).foldlM (fun s (i : Fin n) => treeVisit pm m ptr comp i (f i) s) state := by
  have hzip : ((List.range n).map f).zipIdx =
      (List.finRange n).map fun (i : Fin n) => (f i, (i : ℕ)) := by
    apply List.ext_getElem <;> simp
  rw [treesLoop_zipIdx, hzip, List.foldlM_map]

/-- The inner loop of the walk: `_priority` for each matching priority. -/
def visitRow (prios : List (Fin 32)) (state : State) : Except Fault State :=
  prios.foldlM (fun s (p : Fin 32) => priority m p s) state

/-- The outer loop of the walk: `_channel`, then the row, for each matching channel. -/
def visitRows (chans : List (Fin 512)) (prios : List (Fin 32)) (state : State) :
    Except Fault State :=
  chans.foldlM (fun s (c : Fin 512) => visitRow m prios (channel c s)) state

lemma priorityTable_last (comp : List Byte) (state : State) :
    treesLoop pm m none comp 0 treePriority state = visitRow m (priorities pm comp) state := by
  rw [treePriority, treesLoop_table, visitRow, priorities, List.foldlM_filter]
  simp [treeVisit, callBranch]

/-- A leaf of the tree takes no further component. -/
lemma priorityTable_more (q : Addr) (comp : List Byte) (state : State) :
    treesLoop pm m (some q) comp 0 treePriority state = .ok state := by
  have hskip (prios : List (Fin 32)) :
      prios.foldlM (fun s _ => (Except.ok s : Except Fault State)) state = .ok state := by
    induction prios with
    | nil => rfl
    | cons p prios ih => exact ih
  rw [treePriority, treesLoop_table]
  simp [treeVisit, hskip]

lemma channelTable_last (comp : List Byte) (state : State) :
    treesLoop pm m none comp 0 treeChannel state = visitRows m (channels pm comp) [] state := by
  rw [treeChannel, treesLoop_table, visitRows, channels, List.foldlM_filter]
  simp [treeVisit, callBranch, visitRow]

lemma channelTable_more {q : Addr} {ptr : Option Addr} {prio : List Byte}
    (h : component m (q + 1) = .ok (ptr, prio)) (comp : List Byte) (state : State) :
    treesLoop pm m (some q) comp 0 treeChannel state =
      (channels pm comp).foldlM
        (fun s (c : Fin 512) => treesLoop pm m ptr prio 0 treePriority (channel c s)) state := by
  have hvisit (s : State) (c : Fin 512) :
      treeVisit pm m (some q) comp c (.node (decimal c) (some .channel) treePriority) s =
        if pm comp (decimal c) then treesLoop pm m ptr prio 0 treePriority (channel c s)
        else .ok s := by
    rw [treeVisit]
    simp only [callBranch, ok_bind]
    rw [h, ok_bind]
  rw [treeChannel, treesLoop_table, channels, List.foldlM_filter]
  simp only [hvisit, pure_eq_ok]

/-- The pairs that the components after the first address. -/
def addressed : List (List Byte) → List (Fin 512 × Fin 32)
  | [chan, prio] => channels pm chan ×ˢ priorities pm prio
  | _ => []

lemma visited_cons {dmx : List Byte} (rest : List Byte) (hdmx : slash ∉ dmx) :
    visited pm (dmx ++ slash :: rest) =
      if pm dmx dmxName then addressed pm (rest.splitOn slash) else [] := by
  rw [visited, List.splitOn_append_cons_self_of_not_mem hdmx]
  rcases rest.splitOn slash with _ | ⟨chan, _ | ⟨prio, _ | ⟨more, comps⟩⟩⟩ <;> simp [addressed]

/-- The walk below the root, for paths of two, three and more components. -/
lemma channelTable_walk {p : Addr} {path : List Byte} (h : Text m p path) :
    ∃ ptr comp chans prios, component m p = .ok (ptr, comp) ∧
      addressed pm (path.splitOn slash) = chans ×ˢ prios ∧
      ∀ state, treesLoop pm m ptr comp 0 treeChannel state = visitRows m chans prios state := by
  by_cases hslash : slash ∈ path
  · obtain ⟨chan, rest, rfl, hchan⟩ := List.eq_append_cons_of_mem hslash
    obtain ⟨q, hcomp, hrest⟩ := component_head h hchan
    rw [List.splitOn_append_cons_self_of_not_mem hchan]
    by_cases hmore : slash ∈ rest
    · obtain ⟨prio, more, rfl, hprio⟩ := List.eq_append_cons_of_mem hmore
      obtain ⟨q', hcomp', -⟩ := component_head hrest hprio
      refine ⟨some q, chan, channels pm chan, [], hcomp, ?_, fun state => ?_⟩
      · rw [List.splitOn_append_cons_self_of_not_mem hprio, List.product_nil]
        rcases hsplit : more.splitOn slash with _ | ⟨comp, comps⟩
        · exact absurd hsplit (List.splitOn_ne_nil slash more)
        · simp [addressed]
      · simp only [channelTable_more pm m hcomp', priorityTable_more, visitRows, visitRow,
          List.foldlM_nil, pure_eq_ok]
    · refine ⟨some q, chan, channels pm chan, priorities pm rest, hcomp, ?_, fun state => ?_⟩
      · rw [List.splitOn_eq_singleton hmore, addressed]
      · simp only [channelTable_more pm m (component_last hrest hmore), priorityTable_last,
          visitRows]
  · refine ⟨none, path, channels pm path, [], component_last h hslash, ?_, ?_⟩
    · simp [List.splitOn_eq_singleton hslash, addressed]
    · exact channelTable_last pm m path

/-- The whole walk is the two nested loops, over the pairs that the path addresses. -/
lemma treesInternal_walk {p : Addr} {path : List Byte} (h : Text m p path) :
    ∃ chans prios, visited pm path = chans ×ˢ prios ∧
      ∀ state, treesInternal pm m p treeRoot state = visitRows m chans prios state := by
  by_cases hslash : slash ∈ path
  · obtain ⟨dmx, rest, rfl, hdmx⟩ := List.eq_append_cons_of_mem hslash
    obtain ⟨q, hcomp, hrest⟩ := component_head h hdmx
    rw [visited_cons pm rest hdmx]
    by_cases hpm : pm dmx dmxName = true
    · obtain ⟨ptr, comp, chans, prios, hcomp', haddr, hwalk⟩ := channelTable_walk pm m hrest
      refine ⟨chans, prios, by rw [if_pos hpm, haddr], fun state => ?_⟩
      rw [treesInternal, hcomp, ok_bind]
      simp only [treesLoop, treeRoot, treeVisit, callBranch, if_pos hpm, ok_bind]
      rw [hcomp', ok_bind, hwalk]
      cases visitRows m chans prios state <;> rfl
    · refine ⟨[], [], by rw [if_neg hpm, List.product_nil], fun state => ?_⟩
      rw [treesInternal, hcomp, ok_bind]
      simp [treesLoop, treeRoot, treeVisit, hpm, visitRows]
  · refine ⟨[], [], ?_, fun state => ?_⟩
    · simp [visited, List.splitOn_eq_singleton hslash]
    · rw [treesInternal, component_last h hslash, ok_bind]
      simp [treesLoop, treeRoot, treeVisit, callBranch, visitRows]

end Osc2FtdiDmx.TreeWalk
