import Osc2FtdiDmx.LinkedHeap
import Osc2FtdiDmx.PacketWalk
import Osc2FtdiDmx.ScheduleOrder

/-! The schedule as main.c keeps it: allocated blocks that point to each other. An
access to a block that was freed, or was never allocated, is a failure of its own.
The insertion refines the one on lists. -/
namespace Osc2FtdiDmx.SchedBlocks
open BytesEndian OscMemory OscReader FuelledRuns LinkedHeap PacketHandler PacketWalk ScheduleOrder

/-- Why a step has no defined outcome. -/
inductive Crash
  | dangling (p : ℕ)
  | endless
  | fault (f : Fault)
  deriving DecidableEq, Repr

/-- The allocated blocks; the value of a block is a `sched_t` without its `next`. -/
abbrev Blocks := Heap ℕ Sched

def deref (heap : Blocks) (p : ℕ) : Except Crash (Node ℕ Sched) :=
  match heap p with
  | some b => .ok b
  | none => .error (.dangling p)

/-- The assignment `p->next = next`. -/
def storeNext (heap : Blocks) (p : ℕ) (next : Option ℕ) : Except Crash Blocks := do
  let b ← deref heap p
  pure (Function.update heap p (some ⟨next, b.val⟩))

/-- `free(p)`. -/
def release (heap : Blocks) (p : ℕ) : Except Crash Blocks := do
  let _ ← deref heap p
  pure (Function.update heap p none)

/-- The `for` loop of `_sched_append`; it returns `prev`. A search through more blocks
than were ever asked for goes round in a circle. -/
def schedSearch (heap : Blocks) (elmnt : ℕ) : ℕ → Option ℕ → Option ℕ → Except Crash (Option ℕ)
  | _, prev, none => .ok prev
  | 0, _, some _ => .error .endless
  | n + 1, prev, some ptr => do
      let b ← deref heap ptr
      let e ← deref heap elmnt
      if schedAfter b.val e.val then pure prev else schedSearch heap elmnt n (some ptr) b.next

/-- `_sched_append`; `n` is the number of blocks that were ever asked for. -/
def schedAppendLinked (heap : Blocks) (n : ℕ) (list : Option ℕ) (elmnt : ℕ) :
    Except Crash (Blocks × Option ℕ) :=
  match list with
  | none => do
      let heap ← storeNext heap elmnt none
      pure (heap, some elmnt)
  | some ptr => do
      match ← schedSearch heap elmnt n none (some ptr) with
      | none => do
          let heap ← storeNext heap elmnt (some ptr)
          pure (heap, some elmnt)
      | some prev => do
          let b ← deref heap prev
          let heap ← storeNext heap elmnt b.next
          let heap ← storeNext heap prev (some elmnt)
          pure (heap, some ptr)

/-- The parts of `app_t` a packet can change; `created` lists the elements ever made. -/
structure Proc (σ : Type) where
  state : σ
  list : Option ℕ
  heap : Blocks
  fresh : ℕ
  created : List Sched

section Handler
variable {σ : Type} (E : Env σ) (m : Memory)

/-- The branch of `_handle_osc_packet` for a message with a timetag to wait for. -/
def schedMessageLinked (s : Proc σ) (timetag : BitVec 64) (buf len : Addr) :
    Except Crash (Proc σ) :=
  if E.malloc s.fresh (sizeofSched + len) then do
    let bytes ← (copyMessage m buf len).mapError .fault
    let elmnt : Sched := ⟨s.fresh, schedDue timetag, len, bytes⟩
    let heap := Function.update s.heap s.fresh (some ⟨none, elmnt⟩)
    let (heap, list) ← schedAppendLinked heap (s.fresh + 1) s.list s.fresh
    pure { s with list, heap, fresh := s.fresh + 1, created := s.created ++ [elmnt] }
  else pure { s with fresh := s.fresh + 1 }

/-- The branch of `_handle_osc_packet` for everything that is not a bundle. -/
def handleMessageLinked (s : Proc σ) (timetag : BitVec 64) (reader : Reader) (buf len : Addr) :
    Except Crash (Proc σ) := do
  if ← (readerIsMessage m reader).mapError .fault then
    if timetag = oscImmediate then
      let state ← (E.message m reader len s.state).mapError .fault
      pure { s with state }
    else schedMessageLinked E m s timetag buf len
  else pure s

def handleOscPacketLinked : ℕ → Proc σ → BitVec 64 → Addr → Addr → Fuelled Crash (Proc σ) :=
  packetWalk .fault m (handleMessageLinked E m)

end Handler

/-- The elements hang in this order from the pointer. -/
abbrev Linked (heap : Blocks) (list : Option ℕ) (elems : List Sched) : Prop :=
  Seg Sched.id heap list elems none

def ids (elems : List Sched) : List ℕ := elems.map Sched.id

section Search
variable {heap : Blocks} {p n : ℕ} {node : Node ℕ Sched} {list prev : Option ℕ}
variable {elems : List Sched} {elmnt : Sched} {next : Option ℕ}

@[simp] lemma deref_some (h : heap p = some node) : deref heap p = .ok node := by
  rw [deref, h]

lemma storeNext_some (h : heap p = some node) (next : Option ℕ) :
    storeNext heap p next = .ok (Function.update heap p (some ⟨next, node.val⟩)) := by
  rw [storeNext, deref_some h]
  rfl

/-- The elements that the search passes. -/
def passed (elmnt : Sched) (elems : List Sched) : List Sched :=
  elems.takeWhile fun ptr => ¬ schedAfter ptr elmnt

def remaining (elmnt : Sched) (elems : List Sched) : List Sched :=
  elems.dropWhile fun ptr => ¬ schedAfter ptr elmnt

lemma passed_append_remaining (elmnt : Sched) (elems : List Sched) :
    passed elmnt elems ++ remaining elmnt elems = elems := List.takeWhile_append_dropWhile

lemma schedAppend_eq (elems : List Sched) (elmnt : Sched) :
    schedAppend elems elmnt = passed elmnt elems ++ elmnt :: remaining elmnt elems := by
  rw [schedAppend_eq_orderedInsert, List.orderedInsert_eq_take_drop]
  rfl

/-- By induction on the elements: the search ends behind the last one it passes. -/
lemma schedSearch_linked (h : Linked heap list elems) (he : heap elmnt.id = some ⟨next, elmnt⟩)
    (hn : elems.length ≤ n) :
    schedSearch heap elmnt.id n prev list =
      .ok (((passed elmnt elems).getLast?.map Sched.id).or prev) := by
  induction elems generalizing list prev n with
  | nil =>
    obtain rfl := seg_nil.mp h
    cases n <;> rfl
  | cons e elems ih =>
    obtain ⟨rfl, a, ha, hrest⟩ := seg_cons.mp h
    obtain ⟨n, rfl⟩ : ∃ k, n = k + 1 := ⟨n - 1, by simp at hn; omega⟩
    simp only [schedSearch, deref_some ha, deref_some he, ok_bind]
    by_cases hafter : schedAfter e elmnt
    · simp [hafter, passed]
    · rw [if_neg hafter, ih hrest (by simpa using hn)]
      have hpassed : passed elmnt (e :: elems) = e :: passed elmnt elems := by
        simp [passed, hafter]
      rw [hpassed, List.getLast?_cons]
      cases (passed elmnt elems).getLast? <;> rfl

/-- At the head the new block is written once. -/
lemma linked_head (h : Linked heap list elems) (hnew : elmnt.id ∉ ids elems) :
    Linked (Function.update heap elmnt.id (some ⟨list, elmnt⟩)) (some elmnt.id)
      (elmnt :: elems) :=
  .cons (Function.update_self _ _ _) (h.update _ hnew)

/-- Behind `prev` two blocks are written, the new one first. -/
lemma linked_behind {front back : List Sched} {q : Sched} {a : Option ℕ}
    (hfront : Seg Sched.id heap list front (some q.id)) (hback : Linked heap a back)
    (hnodup : (ids (front ++ q :: back)).Nodup) (hnew : elmnt.id ∉ ids (front ++ q :: back)) :
    Linked (Function.update (Function.update heap elmnt.id (some ⟨a, elmnt⟩)) q.id
      (some ⟨some elmnt.id, q⟩)) list (front ++ q :: elmnt :: back) := by
  simp only [ids, List.map_append, List.map_cons, List.mem_append, List.mem_cons, not_or] at hnew
  obtain ⟨hnewFront, hne, hnewBack⟩ := hnew
  simp only [ids, List.map_append, List.map_cons] at hnodup
  have hq := List.nodup_middle.mp hnodup
  obtain ⟨hqmem, -⟩ := List.nodup_cons.mp hq
  rw [List.mem_append, not_or] at hqmem
  refine seg_append.mpr ⟨some q.id, (hfront.update _ hnewFront).update _ hqmem.1, ?_⟩
  refine .cons (Function.update_self _ _ _) (.cons ?_ ((hback.update _ hnewBack).update _ hqmem.2))
  rw [Function.update_of_ne hne, Function.update_self]

/-- The insertion into linked blocks is the insertion into the list of elements. -/
theorem schedAppendLinked_linked (h : Linked heap list elems)
    (he : heap elmnt.id = some ⟨next, elmnt⟩) (hnew : elmnt.id ∉ ids elems)
    (hnodup : (ids elems).Nodup) (hn : elems.length ≤ n) :
    ∃ heap' list', schedAppendLinked heap n list elmnt.id = .ok (heap', list') ∧
      Linked heap' list' (schedAppend elems elmnt) ∧
      ∀ q, q ≠ elmnt.id → q ∉ ids elems → heap' q = heap q := by
  cases elems with
  | nil =>
    obtain rfl := seg_nil.mp h
    refine ⟨_, _, ?_, linked_head h hnew, fun q hq _ => Function.update_of_ne hq _ _⟩
    simp only [schedAppendLinked, storeNext_some he, ok_bind]
    rfl
  | cons e elems =>
    obtain ⟨hlist, -⟩ := seg_cons.mp h
    have hsearch : schedSearch heap elmnt.id n none list = _ := schedSearch_linked h he hn
    have hsplit := passed_append_remaining elmnt (e :: elems)
    rw [schedAppend_eq]
    rw [hlist] at hsearch ⊢
    rcases List.eq_nil_or_concat (passed elmnt (e :: elems)) with hnone | ⟨front, q, hpassed⟩
    · rw [hnone, List.nil_append] at hsplit ⊢
      rw [hsplit]
      rw [hnone] at hsearch
      refine ⟨_, _, ?_, linked_head (hlist ▸ h) hnew, fun q hq _ => Function.update_of_ne hq _ _⟩
      simp only [schedAppendLinked, hsearch, List.getLast?_nil, Option.map_none, Option.or_none,
        ok_bind, storeNext_some he]
      rfl
    · rw [List.concat_eq_append] at hpassed
      generalize remaining elmnt (e :: elems) = back at hsplit ⊢
      rw [hpassed, List.append_assoc, List.singleton_append] at hsplit
      rw [← hsplit] at h hnew hnodup
      obtain ⟨a, hfront, hrest⟩ := seg_append.mp h
      obtain ⟨rfl, c, hq, hback⟩ := seg_cons.mp hrest
      have hqmem : q.id ∈ ids (front ++ q :: back) := by simp [ids]
      have hqne : q.id ≠ elmnt.id := fun heq => hnew (heq ▸ hqmem)
      rw [hpassed, List.getLast?_concat] at hsearch
      rw [hpassed, List.append_assoc, List.singleton_append, ← hsplit]
      refine ⟨_, _, ?_, linked_behind (hlist ▸ hfront) hback hnodup hnew, fun p hp hmem => ?_⟩
      · have hstored : Function.update heap elmnt.id (some ⟨c, elmnt⟩) q.id = some ⟨c, q⟩ := by
          rw [Function.update_of_ne hqne, hq]
        simp only [schedAppendLinked, hsearch, Option.map_some, Option.some_or, ok_bind,
          deref_some hq, storeNext_some he, storeNext_some hstored]
        rfl
      · have hpq : p ≠ q.id := fun heq => hmem (heq ▸ hqmem)
        rw [Function.update_of_ne hpq, Function.update_of_ne hp]

end Search

end Osc2FtdiDmx.SchedBlocks
