import Osc2FtdiDmx.PacketHandler
import Osc2FtdiDmx.SortedInsertion
import Osc2FtdiDmx.TransitionRuns

/-! The order of the schedule under insertions and removals from its head. The search
of `_sched_append` is an insertion whose test is stricter than the order of due times. -/
namespace Osc2FtdiDmx.ScheduleOrder
open PacketHandler SortedInsertion TransitionRuns

/-- Due times in order: the seconds decide, then the nanoseconds. -/
def stamp (e : Sched) : ℤ ×ₗ ℤ := toLex (e.due.tvSec, e.due.tvNsec)

lemma stamp_lt {e e' : Sched} : stamp e < stamp e' ↔
    e.due.tvSec < e'.due.tvSec ∨ e.due.tvSec = e'.due.tvSec ∧ e.due.tvNsec < e'.due.tvNsec :=
  Prod.Lex.toLex_lt_toLex

/-- The test of the search, as a relation of the new element to one of the list. -/
def Stops (elmnt ptr : Sched) : Prop := schedAfter ptr elmnt

instance : DecidableRel Stops := fun elmnt ptr => inferInstanceAs (Decidable (schedAfter ptr elmnt))

lemma Stops.later {elmnt ptr : Sched} (h : Stops elmnt ptr) : stamp elmnt < stamp ptr :=
  stamp_lt.mpr (Or.inl h.1)

lemma schedAppend_eq_orderedInsert (list : List Sched) (elmnt : Sched) :
    schedAppend list elmnt = list.orderedInsert Stops elmnt := by
  induction list with
  | nil => rfl
  | cons ptr list ih =>
    rw [schedAppend, List.orderedInsert_cons, ih]
    rfl

/-- What `_sched_append` should return. -/
def Inserted (list : List Sched) (elmnt : Sched) (list' : List Sched) : Prop :=
  InOrder stamp list' ∧ StableInsert stamp elmnt list list'

/-- The first element that is due later than the new one, if there is one, is later in
its seconds and in its nanoseconds. -/
def LaterInBoth (list : List Sched) (elmnt : Sched) : Prop :=
  ∀ ptr, firstLater stamp elmnt list = some ptr → schedAfter ptr elmnt

instance (list : List Sched) (elmnt : Sched) : Decidable (LaterInBoth list elmnt) :=
  inferInstanceAs (Decidable (∀ ptr, _ = some ptr → _))

lemma inserted_iff {list : List Sched} (h : InOrder stamp list) (elmnt : Sched) :
    Inserted list elmnt (schedAppend list elmnt) ↔ LaterInBoth list elmnt := by
  rw [Inserted, schedAppend_eq_orderedInsert]
  exact stableInsert_iff_stop h fun _ => Stops.later

/-- What happens to the list: a new element, or the head is taken off. -/
inductive ListEvent
  | append (elmnt : Sched)
  | removeHead

def listStep (list : List Sched) : ListEvent → Option (List Sched)
  | .append elmnt => some (schedAppend list elmnt)
  | .removeHead => some list.tail

/-- The condition on an insertion. -/
def AppendInBoth (list : List Sched) : ListEvent → Prop
  | .append elmnt => LaterInBoth list elmnt
  | .removeHead => True

lemma inOrder_step {list list' : List Sched} {event : ListEvent} (h : InOrder stamp list)
    (hok : AppendInBoth list event) (hstep : Steps listStep list event list') :
    InOrder stamp list' := by
  cases event with
  | append elmnt =>
    cases hstep
    exact ((inserted_iff h elmnt).mpr hok).1
  | removeHead =>
    cases hstep
    exact h.tail

/-- An insertion into an ordered list is right exactly when the first later element is
later in both fields, and the list stays ordered as long as every insertion is of this
kind. -/
theorem schedAppend_inserted_iff (list : List Sched) (h : InOrder stamp list) :
    (∀ elmnt, Inserted list elmnt (schedAppend list elmnt) ↔ LaterInBoth list elmnt) ∧
      ∀ list', RunsTo (Steps listStep) AppendInBoth list list' → InOrder stamp list' :=
  ⟨inserted_iff h, fun _ hrun => hrun.invariant h fun _ _ _ h hok hstep => inOrder_step h hok hstep⟩

def dueAt (id : ℕ) (sec nsec : ℤ) : Sched := ⟨id, ⟨sec, nsec⟩, 0, []⟩

theorem schedAppend_inserted_half :
    Inserted [dueAt 0 10 500000000] (dueAt 1 5 0)
      (schedAppend [dueAt 0 10 500000000] (dueAt 1 5 0)) :=
  ((schedAppend_inserted_iff [dueAt 0 10 500000000] (List.pairwise_singleton _ _)).1
    (dueAt 1 5 0)).mpr (by decide)

/-- Five seconds are put behind ten, since the nanoseconds are equal. -/
theorem schedAppend_not_inserted :
    ¬ ∀ list elmnt, InOrder stamp list →
      (∀ e ∈ elmnt :: list, 0 ≤ e.due.tvNsec ∧ e.due.tvNsec < 1000000000) →
      Inserted list elmnt (schedAppend list elmnt) := by
  intro h
  have horder := (h [dueAt 0 10 0] (dueAt 1 5 0) (List.pairwise_singleton _ _) (by decide)).1
  exact absurd horder (by decide)

end Osc2FtdiDmx.ScheduleOrder
