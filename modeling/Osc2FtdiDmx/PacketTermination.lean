import Osc2FtdiDmx.PacketRanges

/-! Termination of the packet handler. The cursor of a bundle is the measure of its
loop and the length of the range that of the recursion; both decrease exactly as
long as no item size wraps around. -/
namespace Osc2FtdiDmx.PacketTermination
open OscMemory OscReader FuelledRuns PacketHandler PacketCalls PacketRanges

variable {σ : Type} {E : Env σ} {m : Memory} {c : Call σ}

def Finishes (E : Env σ) (m : Memory) (c : Call σ) : Prop := ∃ x, Converges (c.run E m) x

/-- The handler returns, its recursive calls get smaller ranges, and the cursor of
every bundle moves on towards the end from one item to the next. -/
structure Progresses (E : Env σ) (m : Memory) (c : Call σ) : Prop where
  finishes : Finishes E m c
  smaller : ∀ d app r itm, Calls E m c d → Enters E m d app r itm →
    Within itm.body itm.extent d.buf d.len ∧ itm.extent.toNat < d.len.toNat
  advances : ∀ d app app' r r' itm itm', Calls E m c d → Enters E m d app r itm →
    Converges ((itemCall app itm).run E m) (.ok app') →
    readerItemNext itm m r = .ok (some itm', r') →
    r.ptr.toNat < r'.ptr.toNat ∧ r'.ptr.toNat ≤ (d.buf + d.len).toNat

/-- The loop finishes from every state it reaches, if the smaller calls do. -/
lemma loop_finishes (hfits : Fits c) (hok : ItemsUnwrapped E m c)
    (hcalls : ∀ d, d.len.toNat < c.len.toNat → Fits d → ItemsUnwrapped E m d → Finishes E m d)
    (app : App σ) {r : Reader} {itm : Item} (h : Visits E m c app r itm) :
    ∃ x, x ≠ starve ∧ LoopSettles E m app r itm x := by
  have hat := hok.visits hfits h
  revert app
  refine At.induction (m := m) hfits (fun r itm hat ih app h => ?_) hat
  have henter : Enters E m c app r itm := ⟨h, hat.not_end⟩
  have hitm := hok _ _ _ _ Calls.root henter
  obtain ⟨hin, hsmall⟩ := hat.within hfits hitm
  have hbelow : Calls E m c (itemCall app itm) := Calls.root.item henter
  have hlen : (itemCall app itm).len.toNat < c.len.toNat := by
    change itm.extent.toNat < c.len.toNat
    omega
  obtain ⟨x, hx⟩ := hcalls _ hlen (hfits.item hin) (hok.below hbelow)
  cases x with
  | error e =>
    have hne : (.error e : Fuelled Fault (App σ)) ≠ starve := hx.ne_starve
    exact ⟨_, hne, loop_settles_fault hat.not_end hx⟩
  | ok app' =>
    by_cases hnext : ∃ itm' r', readerItemNext itm m r = .ok (some itm', r')
    · obtain ⟨itm', r', hnext⟩ := hnext
      obtain ⟨y, hne, hy⟩ := ih r' itm' hitm hnext app' (h.next hat.not_end hx hnext)
      exact ⟨y, hne, loop_settles_next hat.not_end hx hnext hy⟩
    · push Not at hnext
      exact loop_settles_last hat.not_end hx hnext

lemma message_finishes (hbundle : readerIsBundle m c.reader ≠ .ok true) : Finishes E m c := by
  cases h : readerIsBundle m c.reader with
  | error e =>
    refine ⟨.error (some e), 1, ?_, fault_ne_starve e⟩
    change (liftM (readerIsBundle m c.reader) >>= _ : Fuelled Fault (App σ)) = _
    rw [h]
    rfl
  | ok bundle =>
    cases bundle with
    | true => exact absurd h hbundle
    | false => exact ⟨_, 1, run_message h 0, lift_ne_starve _⟩

lemma empty_finishes (hbundle : readerIsBundle m c.reader = .ok true)
    (hbegin : ∀ itm r, readerBundleBegin c.len m c.reader ≠ .ok (some itm, r)) :
    Finishes E m c := by
  have hrun : c.run E m 1 = _ := run_bundle hbundle 0
  rw [handleOscBundle] at hrun
  cases h : readerBundleBegin c.len m c.reader with
  | error e =>
    rw [h] at hrun
    exact ⟨.error (some e), 1, hrun, fault_ne_starve e⟩
  | ok res =>
    obtain ⟨_ | itm, r⟩ := res
    · rw [h] at hrun
      exact ⟨.ok c.app, 1, hrun, ok_ne_starve c.app⟩
    · exact absurd h (hbegin itm r)

/-- By induction on the length of the range. -/
lemma call_finishes {n : ℕ} {c : Call σ} (hn : c.len.toNat < n) (hfits : Fits c)
    (hok : ItemsUnwrapped E m c) : Finishes E m c := by
  induction n generalizing c with
  | zero => omega
  | succ n ih =>
    by_cases hbundle : readerIsBundle m c.reader = .ok true
    · by_cases hbegin : ∃ itm r, readerBundleBegin c.len m c.reader = .ok (some itm, r)
      · obtain ⟨itm, r, hbegin⟩ := hbegin
        have hfirst : Visits E m c c.app r itm := Visits.first hbundle hbegin
        obtain ⟨x, hne, hx⟩ := loop_finishes hfits hok (fun d hd => ih (by omega)) _ hfirst
        exact ⟨x, visits_settles hfirst hx hne⟩
      · push Not at hbegin
        exact empty_finishes hbundle hbegin
    · exact message_finishes hbundle

lemma progresses_of_unwrapped (hfits : Fits c) (hok : ItemsUnwrapped E m c) :
    Progresses E m c := by
  refine ⟨call_finishes (Nat.lt_succ_self _) hfits hok, ?_, ?_⟩
  · intro d app r itm hcall henter
    have hd := (hok.calls hfits hcall).1
    have hat := (hok.below hcall).visits hd henter.1
    obtain ⟨hin, hsmall⟩ := hat.within hd (hok _ _ _ _ hcall henter)
    exact ⟨hin, by omega⟩
  · intro d app app' r r' itm itm' hcall henter _ hnext
    have hd := (hok.calls hfits hcall).1
    have hat := (hok.below hcall).visits hd henter.1
    obtain ⟨hat', hmove⟩ := hat.next hd (hok _ _ _ _ hcall henter) hnext
    have hupper := hat'.upper
    rw [hat'.endPtr] at hupper
    exact ⟨by omega, hupper⟩

lemma unwrapped_of_progresses (hfits : Fits c) (h : Progresses E m c) : ItemsUnwrapped E m c := by
  intro d app r itm hcall henter
  have hd : Fits d := by
    clear henter
    induction hcall with
    | root => exact hfits
    | item hcall henter ih => exact ih.item (h.smaller _ _ _ _ hcall henter).1
  have hupper := (h.smaller d app r itm hcall henter).1.upper
  rw [Fits] at hd
  rw [Unwrapped]
  omega

/-- The handler terminates with its measures decreasing exactly when no item size wraps around,
which in user space is when none is negative. -/
theorem progresses_iff_unwrapped (E : Env σ) (m : Memory) (c : Call σ) (hfits : Fits c) :
    (Progresses E m c ↔ ItemsUnwrapped E m c) ∧
      (2 ^ 31 ≤ c.buf.toNat → c.buf.toNat + c.len.toNat + 2 ^ 31 ≤ 2 ^ 64 →
        (Progresses E m c ↔ ItemsNonneg E m c)) := by
  have hiff : Progresses E m c ↔ ItemsUnwrapped E m c :=
    ⟨unwrapped_of_progresses hfits, progresses_of_unwrapped hfits⟩
  refine ⟨hiff, fun hlow hhigh => ?_⟩
  rw [hiff]
  exact unwrapped_iff_itemsNonneg hfits hlow hhigh

theorem nested_progresses : Progresses quietEnv nestedImage nestedCall :=
  ((progresses_iff_unwrapped quietEnv nestedImage nestedCall (by decide)).2 (by decide)
    (by decide)).mpr nested_nonneg

/-- After the item of `-4` bytes the cursor stands before the same header again. -/
lemma negativeItem_loop (a b : ℕ) (app : App Unit) :
    bundleLoop (image 0x10000 negativeItem)
      (handleOscPacket quietEnv (image 0x10000 negativeItem) a) b app
      ⟨0x10000, 0x10014, 0x10018⟩ ⟨0xfffffffc, 0x10014, 1, 0x10018⟩ = starve := by
  induction b generalizing app with
  | zero => rfl
  | succ b ih =>
    rw [bundleLoop_succ (by decide)]
    cases a with
    | zero => rfl
    | succ a =>
      have hnext : readerItemNext ⟨0xfffffffc, 0x10014, 1, 0x10018⟩ (image 0x10000 negativeItem)
          ⟨0x10000, 0x10014, 0x10018⟩ = .ok (some ⟨0xfffffffc, 0x10014, 1, 0x10018⟩,
            ⟨0x10000, 0x10014, 0x10018⟩) := by decide +kernel
      have hleaf : readerIsBundle (image 0x10000 negativeItem)
          (readerInitialize 0x10014 (Item.extent ⟨0xfffffffc, 0x10014, 1, 0x10018⟩)) =
          .ok false := by decide +kernel
      have hother : readerIsMessage (image 0x10000 negativeItem)
          (readerInitialize 0x10014 (Item.extent ⟨0xfffffffc, 0x10014, 1, 0x10018⟩)) =
          .ok false := by decide +kernel
      have hcall : (itemCall app ⟨0xfffffffc, 0x10014, 1, 0x10018⟩).run quietEnv
          (image 0x10000 negativeItem) (a + 1) = .ok app := run_other hleaf hother a
      rw [hcall, ok_bind, itemsFrom, ← itemNext_eq, hnext]
      exact ih app

theorem negativeItem_never_returns :
    ¬ ∀ (E : Env Unit) (m : Memory) (c : Call Unit), Fits c → Progresses E m c := by
  intro h
  obtain ⟨x, hx⟩ := (h quietEnv (image 0x10000 negativeItem) (loneCall negativeItem)
    (by decide)).finishes
  refine not_converges_of_starved (fun fuel => ?_) x hx
  cases fuel with
  | zero => rfl
  | succ fuel =>
    have hbundle : readerIsBundle (image 0x10000 negativeItem) (loneCall negativeItem).reader =
        .ok true := by decide +kernel
    have hbegin : readerBundleBegin (loneCall negativeItem).len (image 0x10000 negativeItem)
        (loneCall negativeItem).reader = .ok (some ⟨0xfffffffc, 0x10014, 1, 0x10018⟩,
          ⟨0x10000, 0x10014, 0x10018⟩) := by decide +kernel
    rw [run_first hbundle hbegin]
    exact negativeItem_loop fuel fuel _

end Osc2FtdiDmx.PacketTermination
