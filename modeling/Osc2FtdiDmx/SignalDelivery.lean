import Osc2FtdiDmx.SessionThreads

/-! What becomes of a termination signal. The handler stores `done`, and so does the
start-up of a session; a signal that arrives in between can be overwritten. -/
namespace Osc2FtdiDmx.SignalDelivery
open TransitionRuns SessionThreads

/-- `main` has begun a session and not yet cleared `done` for it. -/
def Starting (s : Threads) : Prop := s.main = .init ∨ s.main = .storeDone

instance (s : Threads) : Decidable (Starting s) := inferInstanceAs (Decidable (_ ∨ _))

/-- The threads with what has happened: a handler has completed at all, and during the
start-up that is going on. -/
structure Watched where
  threads : Threads
  completed : Bool
  early : Bool
  deriving DecidableEq, Repr

def watchedStart (reconnect : Bool) : Watched := ⟨start reconnect, false, false⟩

def watch (w : Watched) (a : Act) : Option Watched :=
  (act w.threads a).map fun t =>
    ⟨t, w.completed || decide (a = .sigDone),
      decide (Starting t) && (w.early || decide (a = .sigDone))⟩

/-- `_loop` does not store `done = false` in a session during whose start-up a handler
has completed. -/
def InTime (w : Watched) (a : Act) : Prop := ¬ (a = .storeDone ∧ w.early = true)

instance (w : Watched) (a : Act) : Decidable (InTime w a) := inferInstanceAs (Decidable (¬ _))

/-- The signal is still in force: `done` is set, the next load of `done` ends the polling
and the next load of `reconnect` ends the program. -/
structure InForce (s : Threads) : Prop where
  done : s.done = true
  polling : ∀ t, act s .loadDone = some t → t.main = .join
  session : ∀ t, act s .loadReconnect = some t → t.main = .finished

/-- What holds between the atomic steps, whatever the order. -/
structure Sound (w : Watched) : Prop where
  stored : w.threads.signalled = true → w.threads.reconnect = false
  reconnect : w.completed = true → w.threads.reconnect = false
  done : w.completed = true → w.threads.done = true
  early : w.completed = true → Starting w.threads → w.early = true

lemma sound_watchedStart (reconnect : Bool) : Sound (watchedStart reconnect) := by
  constructor <;> simp [watchedStart, start]

lemma watch_eq_some {w w' : Watched} {a : Act} (h : watch w a = some w') :
    ∃ t, act w.threads a = some t ∧
      w' = ⟨t, w.completed || decide (a = .sigDone),
        decide (Starting t) && (w.early || decide (a = .sigDone))⟩ := by
  obtain ⟨t, ht, rfl⟩ := Option.map_eq_some_iff.mp h
  exact ⟨t, ht, rfl⟩

/-- The steps that neither clear `done` nor begin a session nor complete a handler. -/
lemma act_other {s t : Threads} {a : Act} (hstep : act s a = some t) (hclear : a ≠ .storeDone)
    (hbegin : a ≠ .loadReconnect) (hsig : a ≠ .sigDone) :
    (s.done = true → t.done = true) ∧ (s.reconnect = false → t.reconnect = false) ∧
      (t.signalled = true → s.signalled = true ∨ t.reconnect = false) ∧
      (Starting t → Starting s) := by
  cases a
  case storeDone => exact absurd rfl hclear
  case loadReconnect => exact absurd rfl hbegin
  case sigDone => exact absurd rfl hsig
  case sigReconnect =>
    cases hstep
    exact ⟨id, fun _ => rfl, fun _ => Or.inr rfl, id⟩
  case loadDone =>
    simp only [act, Option.ite_none_right_eq_some, Option.some.injEq] at hstep
    obtain ⟨hmain, rfl⟩ := hstep
    refine ⟨id, id, Or.inl, fun hstart => ?_⟩
    cases hdone : s.done <;> simp [Starting, hdone] at hstart
  all_goals
    simp only [act, Option.ite_none_right_eq_some, Option.some.injEq] at hstep
    obtain ⟨hpc, rfl⟩ := hstep
    refine ⟨fun h => by simp [h], id, Or.inl, fun hstart => ?_⟩
    simp_all [Starting]

/-- A handler that has completed keeps the program from beginning another session, so
only the start-up it fell into can still clear `done`. -/
lemma sound_watch {w w' : Watched} {a : Act} (h : Sound w) (hok : InTime w a)
    (hstep : watch w a = some w') : Sound w' := by
  obtain ⟨hstored, hreconnect, hdone, hearly⟩ := h
  obtain ⟨t, ht, rfl⟩ := watch_eq_some hstep
  by_cases hclear : a = .storeDone
  · subst hclear
    simp only [act, Option.ite_none_right_eq_some, Option.some.injEq] at ht
    obtain ⟨hmain, rfl⟩ := ht
    have hnone : w.completed = false := by
      by_contra hcompleted
      exact hok ⟨rfl, hearly (by simpa using hcompleted) (Or.inr hmain)⟩
    exact ⟨hstored, by simp [hnone], by simp [hnone], by simp [hnone]⟩
  by_cases hbegin : a = .loadReconnect
  · subst hbegin
    simp only [act, Option.ite_none_right_eq_some, Option.some.injEq] at ht
    obtain ⟨hmain, rfl⟩ := ht
    refine ⟨hstored, by simpa using hreconnect, by simpa using hdone, fun hcompleted hstart => ?_⟩
    rw [hreconnect (by simpa using hcompleted)] at hstart
    simp [Starting] at hstart
  by_cases hsig : a = .sigDone
  · subst hsig
    simp only [act, Option.ite_none_right_eq_some, Option.some.injEq] at ht
    obtain ⟨hsignalled, rfl⟩ := ht
    exact ⟨by simp, fun _ => hstored hsignalled, fun _ => rfl, fun _ hstart => by simp [hstart]⟩
  obtain ⟨hdone', hreconnect', hstored', hstart'⟩ := act_other ht hclear hbegin hsig
  simp only [hsig, decide_false, Bool.or_false]
  refine ⟨fun hsignalled => ?_, fun hcompleted => hreconnect' (hreconnect hcompleted),
    fun hcompleted => hdone' (hdone hcompleted), fun hcompleted hstart => ?_⟩
  · rcases hstored' hsignalled with hbefore | hnow
    · exact hreconnect' (hstored hbefore)
    · exact hnow
  · have hbefore := hearly hcompleted (hstart' hstart)
    simp [hstart, hbefore]

lemma Sound.inForce {w : Watched} (h : Sound w) (hcompleted : w.completed = true) :
    InForce w.threads := by
  refine ⟨h.done hcompleted, fun t ht => ?_, fun t ht => ?_⟩
  · simp only [act, Option.ite_none_right_eq_some, Option.some.injEq] at ht
    obtain ⟨-, rfl⟩ := ht
    simp [h.done hcompleted]
  · simp only [act, Option.ite_none_right_eq_some, Option.some.injEq] at ht
    obtain ⟨-, rfl⟩ := ht
    simp [h.reconnect hcompleted]

/-- In every run in which no session clears `done` after a handler has completed during
its start-up, a completed handler stays in force. -/
theorem completed_inForce (reconnect : Bool) (w : Watched)
    (hrun : RunsTo (Steps watch) InTime (watchedStart reconnect) w) (hcompleted : w.completed = true) :
    InForce w.threads :=
  (hrun.invariant (sound_watchedStart reconnect) fun _ _ _ h hok hstep =>
    sound_watch h hok hstep).inForce hcompleted

/-- A signal in the polling loop of a program that would reconnect. -/
theorem completed_inForce_polling :
    InForce ⟨.pollin, .loadDone, true, false, false⟩ := by
  have hrun : follow watch InTime (watchedStart true)
      [.create, .storeDone, .loadDone, .sigReconnect, .sigDone] =
      some ⟨⟨.pollin, .loadDone, true, false, false⟩, true, false⟩ := by decide
  exact completed_inForce true _ (runsTo_follow watch InTime RunsTo.refl hrun) rfl

/-- A signal before `_loop` clears `done` is lost, and main polls on. -/
theorem early_signal_lost :
    ¬ ∀ (reconnect : Bool) (w : Watched),
      RunsTo (Steps watch) Free (watchedStart reconnect) w → w.completed = true →
        InForce w.threads := by
  intro h
  have hrun : follow watch Free (watchedStart false)
      [.sigReconnect, .sigDone, .create, .storeDone, .loadDone] =
      some ⟨⟨.pollin, .loadDone, false, false, false⟩, true, false⟩ := by decide
  exact absurd (h false _ (runsTo_follow watch Free RunsTo.refl hrun) rfl).done (by decide)

end Osc2FtdiDmx.SignalDelivery
