import Osc2FtdiDmx.PacketFlatten
import Osc2FtdiDmx.SchedBlocks

/-! The packet handler on linked blocks refines the one on lists: its steps never touch
a block that is not allocated, and every element ever made is on the list or gone. -/
namespace Osc2FtdiDmx.BlockRefinement
open BytesEndian OscMemory OscReader FuelledRuns LinkedHeap PacketHandler PacketWalk SchedBlocks

variable {σ : Type}

/-- The blocks of `s` hang together as the list of `app`; the elements `gone` have been
taken off and their blocks freed. -/
structure Refines (gone : List Sched) (s : Proc σ) (app : App σ) : Prop where
  state : s.state = app.state
  fresh : s.fresh = app.fresh
  linked : Linked s.heap s.list app.list
  created : (gone ++ app.list).Perm s.created
  distinct : (ids s.created).Nodup
  bound : ∀ e ∈ s.created, e.id < s.fresh
  freed : ∀ e ∈ gone, s.heap e.id = none

section Facts
variable {gone : List Sched} {s : Proc σ} {app : App σ}

lemma Refines.nodup (h : Refines gone s app) : (ids gone ++ ids app.list).Nodup := by
  have hperm : (ids (gone ++ app.list)).Perm (ids s.created) := h.created.map _
  rw [ids, List.map_append] at hperm
  exact hperm.nodup_iff.mpr h.distinct

lemma Refines.below (h : Refines gone s app) {e : Sched} (he : e ∈ gone ++ app.list) :
    e.id < s.fresh := h.bound e (h.created.subset he)

/-- There are no more elements than blocks ever asked for. -/
lemma Refines.length_le (h : Refines gone s app) : app.list.length ≤ s.fresh := by
  have hsub : ids app.list ⊆ List.range s.fresh := by
    intro p hp
    obtain ⟨e, he, rfl⟩ := List.mem_map.mp hp
    exact List.mem_range.mpr (h.below (List.mem_append_right _ he))
  have hle := (List.subperm_of_subset h.nodup.of_append_right hsub).length_le
  rwa [ids, List.length_map, List.length_range] at hle

lemma Refines.fresh_notMem (h : Refines gone s app) : s.fresh ∉ ids (gone ++ app.list) := by
  intro hmem
  obtain ⟨e, he, heq⟩ := List.mem_map.mp hmem
  exact absurd heq (h.below he).ne

/-- A new element is linked in where the list has it. -/
lemma Refines.append (h : Refines gone s app) {elmnt : Sched} (hid : elmnt.id = s.fresh) :
    ∃ heap list,
      schedAppendLinked (Function.update s.heap s.fresh (some ⟨none, elmnt⟩)) (s.fresh + 1) s.list
          s.fresh = .ok (heap, list) ∧
      Refines gone
        { s with list, heap, fresh := s.fresh + 1, created := s.created ++ [elmnt] }
        { app with list := schedAppend app.list elmnt, fresh := app.fresh + 1 } := by
  have hnot := h.fresh_notMem
  rw [ids, List.map_append, List.mem_append, not_or, ← hid] at hnot
  have hself : Function.update s.heap s.fresh (some ⟨none, elmnt⟩) elmnt.id =
      some ⟨none, elmnt⟩ := by
    rw [hid, Function.update_self]
  have hlinked : Linked (Function.update s.heap s.fresh (some ⟨none, elmnt⟩)) s.list app.list :=
    h.linked.update _ (hid ▸ hnot.2)
  obtain ⟨heap, list, hrun, hlinked', hframe⟩ := schedAppendLinked_linked hlinked hself hnot.2
    h.nodup.of_append_right (h.length_le.trans (Nat.le_succ _))
  rw [hid] at hrun
  refine ⟨heap, list, hrun, h.state, congrArg (· + 1) h.fresh, hlinked', ?_, ?_, ?_, ?_⟩
  · have happend : (schedAppend app.list elmnt).Perm (app.list ++ [elmnt]) :=
      (PacketFlatten.schedAppend_perm app.list elmnt).trans (List.perm_append_singleton _ _).symm
    refine (happend.append_left gone).trans ?_
    rw [← List.append_assoc]
    exact h.created.append_right _
  · rw [ids, List.map_append, List.map_singleton]
    refine List.nodup_append.mpr ⟨h.distinct, List.nodup_singleton _, fun p hp q hq heq => ?_⟩
    obtain ⟨e, he, rfl⟩ := List.mem_map.mp hp
    have hlt := h.bound e he
    rw [List.mem_singleton, hid] at hq
    omega
  · intro e he
    rcases List.mem_append.mp he with he | he
    · exact (h.bound e he).trans (Nat.lt_succ_self _)
    · obtain rfl := List.mem_singleton.mp he
      rw [hid]
      exact Nat.lt_succ_self _
  · intro e he
    have hne : e.id ≠ elmnt.id := by
      rw [hid]
      exact (h.below (List.mem_append_left _ he)).ne
    have hmem : e.id ∉ ids app.list := fun hmem =>
      (List.nodup_append.mp h.nodup).2.2 _ (List.mem_map_of_mem he) _ hmem rfl
    change heap e.id = none
    rw [hframe e.id hne hmem, Function.update_of_ne (hid ▸ hne), h.freed e he]

lemma Refines.withState (h : Refines gone s app) (state : σ) :
    Refines gone { s with state } { app with state } :=
  ⟨rfl, h.fresh, h.linked, h.created, h.distinct, h.bound, h.freed⟩

/-- A call of `malloc` that gets no block is counted. -/
lemma Refines.refused (h : Refines gone s app) :
    Refines gone { s with fresh := app.fresh + 1 } { app with fresh := app.fresh + 1 } :=
  ⟨h.state, rfl, h.linked, h.created, h.distinct,
    fun e he => h.fresh ▸ Nat.lt_succ_of_lt (h.bound e he), h.freed⟩

/-- The head is taken off and its block freed. -/
lemma Refines.remove (h : Refines gone s app) {e : Sched} {es : List Sched}
    (hlist : app.list = e :: es) {a : Option ℕ} (he : s.heap e.id = some ⟨a, e⟩)
    {gone' : List Sched} (hgone : gone'.Perm (e :: gone)) :
    Refines gone' { s with list := a, heap := Function.update s.heap e.id none }
      { app with list := es } := by
  have hlinked := h.linked
  have hnodup := h.nodup.of_append_right
  rw [hlist] at hlinked hnodup
  obtain ⟨-, b, hb, hrest⟩ := seg_cons.mp hlinked
  obtain ⟨hnew, -⟩ := List.nodup_cons.mp hnodup
  have hab : b = a := by
    rw [hb] at he
    cases he
    rfl
  refine ⟨h.state, h.fresh, (hab ▸ hrest).update _ hnew, ?_, h.distinct, h.bound, fun x hx => ?_⟩
  · refine (hgone.append_right es).trans ?_
    have hmiddle : (e :: (gone ++ es)).Perm (gone ++ e :: es) := List.perm_middle.symm
    rw [← hlist] at hmiddle
    exact hmiddle.trans h.created
  · by_cases hxe : x.id = e.id
    · change Function.update s.heap e.id none x.id = none
      rw [hxe, Function.update_self]
    · change Function.update s.heap e.id none x.id = none
      rw [Function.update_of_ne hxe]
      rcases List.mem_cons.mp (hgone.subset hx) with rfl | hx
      · exact absurd rfl hxe
      · exact h.freed x hx

end Facts

section Handler
variable {E : Env σ} {m : Memory} {gone : List Sched}

lemma handleMessage_sim (s : Proc σ) (app : App σ) (timetag : BitVec 64) (r : Reader)
    (buf len : Addr) (h : Refines gone s app) :
    Sim .fault (Refines gone) (lift (handleMessageLinked E m s timetag r buf len))
      (lift (handleMessage E m app timetag r buf len)) := by
  rw [handleMessageLinked, handleMessage, lift_bind, lift_bind]
  refine (Sim.lift_self _).bind fun isMessage isMessage' heq => ?_
  subst heq
  cases isMessage with
  | false => exact .ok h
  | true =>
    simp only [if_true]
    by_cases ht : timetag = oscImmediate
    · rw [if_pos ht, if_pos ht, lift_bind, lift_bind, h.state]
      refine (Sim.lift_self _).bind fun state state' heq => ?_
      subst heq
      exact .ok ⟨rfl, h.fresh, h.linked, h.created, h.distinct, h.bound, h.freed⟩
    · rw [if_neg ht, if_neg ht, schedMessageLinked, schedMessage]
      rw [h.fresh]
      by_cases hroom : E.malloc app.fresh (sizeofSched + len) = true
      · rw [if_pos hroom, if_pos hroom, lift_bind, lift_bind]
        refine (Sim.lift_self _).bind fun bytes bytes' heq => ?_
        subst heq
        have hid : (⟨s.fresh, schedDue timetag, len, bytes⟩ : Sched).id = s.fresh := rfl
        obtain ⟨heap, list, hrun, href⟩ := h.append hid
        rw [← h.fresh] at href
        simp only [hrun, ok_bind, ← h.fresh]
        exact .ok href
      · rw [if_neg hroom, if_neg hroom]
        exact .ok h.refused

/-- Under every budget the two handlers end alike. -/
theorem handleOscPacket_sim (fuel : ℕ) {s : Proc σ} {app : App σ} (h : Refines gone s app)
    (timetag : BitVec 64) (buf len : Addr) :
    Sim .fault (Refines gone) (handleOscPacketLinked E m fuel s timetag buf len)
      (handleOscPacket E m fuel app timetag buf len) :=
  packetWalk_sim E m handleMessage_sim fuel h timetag buf len

end Handler

end Osc2FtdiDmx.BlockRefinement
