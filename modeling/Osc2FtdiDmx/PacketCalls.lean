import Osc2FtdiDmx.PacketHandler

/-! The activations of the packet handler within one run: the loop states that a
bundle reaches, the recursive calls it makes from them, and how the result of a
call decides the result of the call that made it. -/
namespace Osc2FtdiDmx.PacketCalls
open OscMemory OscReader FuelledRuns PacketHandler

/-- The arguments of one activation of `_handle_osc_packet`. -/
structure Call (σ : Type) where
  app : App σ
  timetag : BitVec 64
  buf : Addr
  len : Addr

variable {σ : Type}

def Call.reader (c : Call σ) : Reader := readerInitialize c.buf c.len

def Call.run (E : Env σ) (m : Memory) (c : Call σ) (fuel : ℕ) : Fuelled Fault (App σ) :=
  handleOscPacket E m fuel c.app c.timetag c.buf c.len

def itemCall (app : App σ) (itm : Item) : Call σ := ⟨app, itm.timetag, itm.body, itm.extent⟩

variable (E : Env σ) (m : Memory)

/-- The loop test of the bundle `c` is reached with this application, cursor and item. -/
inductive Visits (c : Call σ) : App σ → Reader → Item → Prop
  | first {r : Reader} {itm : Item} : readerIsBundle m c.reader = .ok true →
      readerBundleBegin c.len m c.reader = .ok (some itm, r) → Visits c c.app r itm
  | next {app app' : App σ} {r r' : Reader} {itm itm' : Item} : Visits c app r itm →
      readerItemIsEnd r itm = false → Converges ((itemCall app itm).run E m) (.ok app') →
      readerItemNext itm m r = .ok (some itm', r') → Visits c app' r' itm'

/-- The loop body runs, and so the recursive call for the item is made. -/
def Enters (c : Call σ) (app : App σ) (r : Reader) (itm : Item) : Prop :=
  Visits E m c app r itm ∧ readerItemIsEnd r itm = false

/-- `d` is `c` itself or a recursive call made below it. -/
inductive Calls (c : Call σ) : Call σ → Prop
  | root : Calls c c
  | item {d : Call σ} {app : App σ} {r : Reader} {itm : Item} : Calls c d →
      Enters E m d app r itm → Calls c (itemCall app itm)

variable {E m}

lemma Calls.trans {b c d : Call σ} (h : Calls E m b c) (g : Calls E m c d) : Calls E m b d := by
  induction g with
  | root => exact h
  | item _ henter ih => exact ih.item henter

lemma not_visits {c : Call σ} (h : readerIsBundle m c.reader = .ok false) {app : App σ} {r : Reader}
    {itm : Item} : ¬ Visits E m c app r itm := by
  intro hvisit
  induction hvisit with
  | first hbundle _ =>
    rw [h] at hbundle
    cases hbundle
  | next _ _ _ _ ih => exact ih

lemma run_message {c : Call σ} (h : readerIsBundle m c.reader = .ok false) (n : ℕ) :
    c.run E m (n + 1) = lift (handleMessage E m c.app c.timetag c.reader c.buf c.len) := by
  change (liftM (readerIsBundle m c.reader) >>= _ : Fuelled Fault (App σ)) = _
  rw [h]
  rfl

/-- Bytes that are neither a bundle nor a message are passed over. -/
lemma run_other {c : Call σ} (h : readerIsBundle m c.reader = .ok false)
    (hother : readerIsMessage m c.reader = .ok false) (n : ℕ) : c.run E m (n + 1) = .ok c.app := by
  rw [run_message h, handleMessage, hother]
  rfl

lemma run_bundle {c : Call σ} (h : readerIsBundle m c.reader = .ok true) (n : ℕ) :
    c.run E m (n + 1) = handleOscBundle m (handleOscPacket E m n) n c.app c.reader c.len := by
  change (liftM (readerIsBundle m c.reader) >>= _ : Fuelled Fault (App σ)) = _
  rw [h]
  rfl

lemma run_first {c : Call σ} {itm : Item} {r : Reader} (h : readerIsBundle m c.reader = .ok true)
    (hbegin : readerBundleBegin c.len m c.reader = .ok (some itm, r)) (n : ℕ) :
    c.run E m (n + 1) = bundleLoop m (handleOscPacket E m n) n c.app r itm := by
  rw [run_bundle h, handleOscBundle, hbegin]
  rfl

/-- Every sufficient budget gives the loop this result. -/
def LoopSettles (E : Env σ) (m : Memory) (app : App σ) (r : Reader) (itm : Item)
    (x : Fuelled Fault (App σ)) : Prop :=
  ∃ N, ∀ a ≥ N, ∀ b ≥ N, bundleLoop m (handleOscPacket E m a) b app r itm = x

lemma run_chain (c : Call σ) : Chain (c.run E m) := handleOscPacket_chain E m _ _ _ _

lemma run_settled {c : Call σ} {x : Fuelled Fault (App σ)} (h : Converges (c.run E m) x) :
    ∃ N, ∀ n ≥ N, c.run E m n = x := by
  obtain ⟨N, rfl, hN⟩ := h
  exact ⟨N, fun n hn => ((run_chain c).le hn).eq_of_ne hN⟩

/-- What follows once the cursor stands before an item header: read it and loop. -/
def itemsFrom (E : Env σ) (m : Memory) (a b : ℕ) (app : App σ) (r : Reader) (itm : Item) :
    Fuelled Fault (App σ) := do
  let (next, r) ← readerItemRaw itm m r
  match next with
  | none => pure app
  | some itm => bundleLoop m (handleOscPacket E m a) b app r itm

lemma bundleLoop_succ {a b : ℕ} {app : App σ} {r : Reader} {itm : Item}
    (h : readerItemIsEnd r itm = false) :
    bundleLoop m (handleOscPacket E m a) (b + 1) app r itm =
      (itemCall app itm).run E m a >>= fun app =>
        itemsFrom E m a b app (r.advance itm.extent) itm := by
  rw [bundleLoop, if_neg (by rw [h]; exact Bool.false_ne_true)]
  rfl

lemma itemNext_eq (itm : Item) (r : Reader) :
    readerItemNext itm m r = readerItemRaw itm m (r.advance itm.extent) := rfl

/-- The first round of the loop takes one unit of the budget. -/
lemma loop_settles_round {app : App σ} {r : Reader} {itm : Item} {x : Fuelled Fault (App σ)} (N : ℕ)
    (h : ∀ a ≥ N, ∀ b ≥ N, bundleLoop m (handleOscPacket E m a) (b + 1) app r itm = x) :
    LoopSettles E m app r itm x := by
  refine ⟨N + 1, fun a ha b hb => ?_⟩
  obtain ⟨b, rfl⟩ : ∃ k, b = k + 1 := ⟨b - 1, by omega⟩
  exact h a (by omega) b (by omega)

lemma loop_settles_fault {app : App σ} {r : Reader} {itm : Item} {e : Option Fault}
    (h : readerItemIsEnd r itm = false) (hcall : Converges ((itemCall app itm).run E m) (.error e)) :
    LoopSettles E m app r itm (.error e) := by
  obtain ⟨N, hN⟩ := run_settled hcall
  refine loop_settles_round N fun a ha b _ => ?_
  rw [bundleLoop_succ h, hN a ha]
  rfl

/-- Once the item's own call has returned, the rest decides the result of the loop. -/
lemma loop_settles_rest {app app' : App σ} {r : Reader} {itm : Item} {x : Fuelled Fault (App σ)}
    (h : readerItemIsEnd r itm = false) (hcall : Converges ((itemCall app itm).run E m) (.ok app'))
    (hrest : ∃ N, ∀ a ≥ N, ∀ b ≥ N, itemsFrom E m a b app' (r.advance itm.extent) itm = x) :
    LoopSettles E m app r itm x := by
  obtain ⟨N, hN⟩ := run_settled hcall
  obtain ⟨K, hK⟩ := hrest
  refine loop_settles_round (max N K) fun a ha b hb => ?_
  rw [bundleLoop_succ h, hN a (by omega)]
  exact hK a (by omega) b (by omega)

lemma loop_settles_next {app app' : App σ} {r r' : Reader} {itm itm' : Item}
    {x : Fuelled Fault (App σ)} (h : readerItemIsEnd r itm = false)
    (hcall : Converges ((itemCall app itm).run E m) (.ok app'))
    (hnext : readerItemNext itm m r = .ok (some itm', r')) (hx : LoopSettles E m app' r' itm' x) :
    LoopSettles E m app r itm x := by
  obtain ⟨K, hK⟩ := hx
  refine loop_settles_rest h hcall ⟨K, fun a ha b hb => ?_⟩
  rw [itemsFrom, ← itemNext_eq, hnext]
  exact hK a ha b hb

lemma loop_settles_done {app app' : App σ} {r r' : Reader} {itm : Item}
    (h : readerItemIsEnd r itm = false)
    (hcall : Converges ((itemCall app itm).run E m) (.ok app'))
    (hnext : readerItemNext itm m r = .ok (none, r')) : LoopSettles E m app r itm (.ok app') := by
  refine loop_settles_rest h hcall ⟨0, fun a _ b _ => ?_⟩
  rw [itemsFrom, ← itemNext_eq, hnext]
  rfl

/-- The loop stops after the item's call: the next item header is refused or faults. -/
lemma loop_settles_last {app app' : App σ} {r : Reader} {itm : Item}
    (h : readerItemIsEnd r itm = false)
    (hcall : Converges ((itemCall app itm).run E m) (.ok app'))
    (hnext : ∀ itm' r', readerItemNext itm m r ≠ .ok (some itm', r')) :
    ∃ x, x ≠ starve ∧ LoopSettles E m app r itm x := by
  cases hread : readerItemNext itm m r with
  | error e =>
    refine ⟨.error (some e), fault_ne_starve e, loop_settles_rest h hcall ⟨0, fun a _ b _ => ?_⟩⟩
    rw [itemsFrom, ← itemNext_eq, hread]
    rfl
  | ok res =>
    obtain ⟨_ | itm', r'⟩ := res
    · exact ⟨.ok app', ok_ne_starve app', loop_settles_done h hcall hread⟩
    · exact absurd hread (hnext itm' r')

/-- The result of the loop from any state it reaches is the result of the call. -/
theorem visits_settles {c : Call σ} {app : App σ} {r : Reader} {itm : Item}
    {x : Fuelled Fault (App σ)} (h : Visits E m c app r itm) (hx : LoopSettles E m app r itm x)
    (hne : x ≠ starve) : Converges (c.run E m) x := by
  induction h with
  | @first r itm hbundle hbegin =>
    obtain ⟨N, hN⟩ := hx
    exact ⟨N + 1, (run_first hbundle hbegin N).trans (hN N le_rfl N le_rfl), hne⟩
  | next _ hend hcall hnext ih => exact ih (loop_settles_next hend hcall hnext hx)

/-- A fault of a recursive call is a fault of the call that started the run. -/
theorem calls_fault {c d : Call σ} {e : Fault} (h : Calls E m c d)
    (hd : Converges (d.run E m) (.error (some e))) : Converges (c.run E m) (.error (some e)) := by
  induction h with
  | root => exact hd
  | item _ henter ih =>
    exact ih (visits_settles henter.1 (loop_settles_fault henter.2 hd) (fault_ne_starve e))

end Osc2FtdiDmx.PacketCalls
