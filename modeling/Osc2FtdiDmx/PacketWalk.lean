import Osc2FtdiDmx.PacketHandler

/-! The recursion of `_handle_osc_packet` over any state: what happens to the messages
of a packet is a parameter, and so are the failures this may add. -/
namespace Osc2FtdiDmx.PacketWalk
open OscMemory OscReader FuelledRuns PacketHandler

section Walk
variable {ε α : Type} (fault : Fault → ε) (m : Memory)

/-- A step of the reader. -/
def read {β : Type} (x : Except Fault β) : Fuelled ε β := lift (x.mapError fault)

/-- The loop of `OSC_READER_BUNDLE_FOREACH` in `_handle_osc_bundle`. -/
def bundleWalk (packet : α → BitVec 64 → Addr → Addr → Fuelled ε α) :
    ℕ → α → Reader → Item → Fuelled ε α
  | 0, _, _, _ => starve
  | fuel + 1, a, r, itm =>
      if readerItemIsEnd r itm then pure a else do
        let a ← packet a itm.timetag itm.body itm.extent
        let (next, r) ← read fault (readerItemNext itm m r)
        match next with
        | none => pure a
        | some itm => bundleWalk packet fuel a r itm

/-- `_handle_osc_packet`, with its branch for everything that is not a bundle. -/
def packetWalk (message : α → BitVec 64 → Reader → Addr → Addr → Except ε α) :
    ℕ → α → BitVec 64 → Addr → Addr → Fuelled ε α
  | 0, _, _, _, _ => starve
  | fuel + 1, a, timetag, buf, len => do
      let reader := readerInitialize buf len
      if ← read fault (readerIsBundle m reader) then do
        let (first, r) ← read fault (readerBundleBegin len m reader)
        match first with
        | none => pure a
        | some itm => bundleWalk fault m (packetWalk message fuel) fuel a r itm
      else
        lift (message a timetag reader buf len)

lemma packetWalk_message {message : α → BitVec 64 → Reader → Addr → Addr → Except ε α}
    {buf len : Addr} (h : readerIsBundle m (readerInitialize buf len) = .ok false) (fuel : ℕ) (a : α)
    (timetag : BitVec 64) :
    packetWalk fault m message (fuel + 1) a timetag buf len =
      lift (message a timetag (readerInitialize buf len) buf len) := by
  rw [packetWalk, h]
  rfl

end Walk

section Simulation
variable {ε α σ : Type} {fault : Fault → ε} {R : α → App σ → Prop} (E : Env σ) (m : Memory)

lemma bundleWalk_sim {packet : α → BitVec 64 → Addr → Addr → Fuelled ε α}
    {packet' : App σ → BitVec 64 → Addr → Addr → Fuelled Fault (App σ)}
    (hp : ∀ a app timetag buf len, R a app →
      Sim fault R (packet a timetag buf len) (packet' app timetag buf len))
    (fuel : ℕ) {a : α} {app : App σ} (h : R a app) (r : Reader) (itm : Item) :
    Sim fault R (bundleWalk fault m packet fuel a r itm) (bundleLoop m packet' fuel app r itm) := by
  induction fuel generalizing a app r itm with
  | zero => exact Sim.starve
  | succ fuel ih =>
    rw [bundleWalk, bundleLoop]
    by_cases hend : readerItemIsEnd r itm
    · rw [if_pos hend, if_pos hend]
      exact .ok h
    · rw [if_neg hend, if_neg hend]
      refine (hp _ _ _ _ _ h).bind fun a' app' h' => (Sim.lift_self _).bind fun next next' heq => ?_
      subst heq
      rcases next with ⟨_ | itm, r⟩
      · exact .ok h'
      · exact ih h' r itm

/-- If the message branches keep the states related, so do the packet handlers. -/
theorem packetWalk_sim {message : α → BitVec 64 → Reader → Addr → Addr → Except ε α}
    (hmsg : ∀ a app timetag r buf len, R a app →
      Sim fault R (lift (message a timetag r buf len))
        (lift (handleMessage E m app timetag r buf len)))
    (fuel : ℕ) {a : α} {app : App σ} (h : R a app) (timetag : BitVec 64) (buf len : Addr) :
    Sim fault R (packetWalk fault m message fuel a timetag buf len)
      (handleOscPacket E m fuel app timetag buf len) := by
  induction fuel generalizing a app timetag buf len with
  | zero => exact Sim.starve
  | succ fuel ih =>
    rw [packetWalk, handleOscPacket]
    refine (Sim.lift_self _).bind fun bundle bundle' heq => ?_
    subst heq
    cases bundle with
    | false => exact hmsg _ _ _ _ _ _ h
    | true =>
      refine (Sim.lift_self _).bind fun first first' heq => ?_
      subst heq
      rcases first with ⟨_ | itm, r⟩
      · exact .ok h
      · exact bundleWalk_sim m (fun _ _ t b l h' => ih h' t b l) fuel h r itm

end Simulation

end Osc2FtdiDmx.PacketWalk
