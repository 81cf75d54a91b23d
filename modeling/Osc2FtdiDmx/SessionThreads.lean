import Osc2FtdiDmx.TransitionRuns

/-! The threads of main.c over any number of reconnect sessions: `main` with `_loop`,
the `_beat` thread of the session, and the signal handler, step by atomic step. -/
namespace Osc2FtdiDmx.SessionThreads
open TransitionRuns

/-- Where the main thread stands; each name is the step it takes next. -/
inductive MainPc
  | init
  | storeDone
  | loadDone
  | pollin
  | join
  | loadReconnect
  | finished
  deriving DecidableEq, Repr

/-- Where the `_beat` thread of the session stands. -/
inductive BeatPc
  | absent
  | loadDone
  | work
  | xmit
  | storeDone
  | exited
  deriving DecidableEq, Repr

structure Threads where
  main : MainPc
  beat : BeatPc
  done : Bool
  reconnect : Bool
  signalled : Bool
  deriving DecidableEq, Repr

/-- The program before its first session; option `-A` sets `reconnect`. -/
def start (reconnect : Bool) : Threads := ⟨.init, .absent, false, reconnect, false⟩

inductive Act
  | initFails
  | create
  | storeDone
  | loadDone
  | pollin
  | join
  | loadReconnect
  | beatLoad
  | beatInterrupted
  | beatWork
  | xmitOk
  | xmitFails
  | beatStore
  | sigReconnect
  | sigDone
  deriving DecidableEq, Repr

/-- One atomic step, where it is enabled. -/
def act (s : Threads) : Act → Option Threads
  | .initFails => if s.main = .init then some { s with main := .loadReconnect } else none
  | .create =>
      if s.main = .init then some { s with main := .storeDone, beat := .loadDone } else none
  | .storeDone =>
      if s.main = .storeDone then some { s with main := .loadDone, done := false } else none
  | .loadDone =>
      if s.main = .loadDone then
        some { s with main := if s.done then .join else .pollin }
      else none
  | .pollin => if s.main = .pollin then some { s with main := .loadDone } else none
  | .join =>
      if s.main = .join ∧ s.beat = .exited then
        some { s with main := .loadReconnect, beat := .absent }
      else none
  | .loadReconnect =>
      if s.main = .loadReconnect then
        some { s with main := if s.reconnect then .init else .finished }
      else none
  | .beatLoad =>
      if s.beat = .loadDone then
        some { s with beat := if s.done then .exited else .work }
      else none
  -- `clock_nanosleep` reports an interruption: `continue`
  | .beatInterrupted => if s.beat = .work then some { s with beat := .loadDone } else none
  | .beatWork => if s.beat = .work then some { s with beat := .xmit } else none
  | .xmitOk => if s.beat = .xmit then some { s with beat := .loadDone } else none
  | .xmitFails => if s.beat = .xmit then some { s with beat := .storeDone } else none
  | .beatStore =>
      if s.beat = .storeDone then some { s with beat := .loadDone, done := true } else none
  | .sigReconnect => some { s with reconnect := false, signalled := true }
  | .sigDone => if s.signalled then some { s with done := true, signalled := false } else none

/-- The polling loop: after `done` was cleared and before it was read as true. -/
def Threads.Polling (s : Threads) : Prop := s.main = .loadDone ∨ s.main = .pollin

/-- The new thread does not read a leftover `done` before `_loop` has cleared it. -/
def Cleared (s : Threads) (a : Act) : Prop :=
  ¬ (a = .beatLoad ∧ s.main = .storeDone ∧ s.done = true)

instance (s : Threads) (a : Act) : Decidable (Cleared s a) := inferInstanceAs (Decidable (¬ _))

/-- What holds between the atomic steps of a run in which the thread starts in time. -/
structure Sound (s : Threads) : Prop where
  waiting : s.main = .storeDone → s.beat ≠ .exited
  polling : s.Polling → s.beat = .exited → s.done = true

lemma sound_start (reconnect : Bool) : Sound (start reconnect) :=
  ⟨fun _ => by simp [start], fun h => by simp [Threads.Polling, start] at h⟩

/-- Only the thread's own load of `done` lets it exit, and only `_loop` clears `done`. -/
lemma sound_step {s t : Threads} {a : Act} (h : Sound s) (hok : Cleared s a)
    (hstep : act s a = some t) : Sound t := by
  obtain ⟨hwait, hpoll⟩ := h
  cases a
  case storeDone =>
    simp only [act, Option.ite_none_right_eq_some, Option.some.injEq] at hstep
    obtain ⟨hmain, rfl⟩ := hstep
    exact ⟨by simp, fun _ hexit => absurd hexit (hwait hmain)⟩
  case beatLoad =>
    simp only [act, Option.ite_none_right_eq_some, Option.some.injEq] at hstep
    obtain ⟨hbeat, rfl⟩ := hstep
    have hlate : ¬ (s.main = .storeDone ∧ s.done = true) := fun h => hok ⟨rfl, h⟩
    cases hdone : s.done
    · exact ⟨by simp, by simp⟩
    · exact ⟨fun hmain => absurd ⟨hmain, hdone⟩ hlate, fun _ _ => rfl⟩
  case loadDone =>
    simp only [act, Option.ite_none_right_eq_some, Option.some.injEq] at hstep
    obtain ⟨hmain, rfl⟩ := hstep
    cases hdone : s.done
    · exact ⟨by simp, fun _ hexit => absurd (hpoll (Or.inl hmain) hexit) (by simp [hdone])⟩
    · exact ⟨by simp, fun _ _ => rfl⟩
  case loadReconnect =>
    simp only [act, Option.ite_none_right_eq_some, Option.some.injEq] at hstep
    obtain ⟨hmain, rfl⟩ := hstep
    cases s.reconnect <;> exact ⟨by simp, by simp [Threads.Polling]⟩
  case sigReconnect =>
    cases hstep
    exact ⟨hwait, hpoll⟩
  all_goals
    simp only [act, Option.ite_none_right_eq_some, Option.some.injEq] at hstep
    obtain ⟨hpc, rfl⟩ := hstep
    constructor <;> simp_all [Threads.Polling]

/-- In every run in which no new thread reads a leftover `done`, the bridge polls only
while its output thread runs or `done` tells that it has ended. -/
theorem polling_exited_done (reconnect : Bool) (s : Threads)
    (hrun : RunsTo (Steps act) Cleared (start reconnect) s) (hpoll : s.Polling)
    (hexit : s.beat = .exited) : s.done = true :=
  (hrun.invariant (sound_start reconnect) fun _ _ _ h hok hstep =>
    sound_step h hok hstep).polling hpoll hexit

/-- After a failed transmission the thread exits and main sees it. -/
theorem polling_exited_done_failure :
    (⟨.loadDone, .exited, true, false, false⟩ : Threads).done = true := by
  have hrun : follow act Cleared (start false)
      [.create, .storeDone, .beatLoad, .beatWork, .xmitFails, .beatStore, .beatLoad] =
      some ⟨.loadDone, .exited, true, false, false⟩ := by decide
  exact polling_exited_done false _ (runsTo_follow act Cleared RunsTo.refl hrun) (Or.inl rfl) rfl

/-- The thread fails and exits before `_loop` clears `done`, and then main polls on. -/
theorem polling_without_thread :
    ¬ ∀ (reconnect : Bool) (s : Threads), RunsTo (Steps act) Free (start reconnect) s →
      s.Polling → s.beat = .exited → s.done = true := by
  intro h
  have hrun : follow act Free (start true)
      [.create, .beatLoad, .beatWork, .xmitFails, .beatStore, .beatLoad, .storeDone, .loadDone] =
      some ⟨.pollin, .exited, false, true, false⟩ := by decide
  exact absurd (h true _ (runsTo_follow act Free RunsTo.refl hrun) (Or.inr rfl) rfl) (by decide)

end Osc2FtdiDmx.SessionThreads
