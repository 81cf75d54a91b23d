import Osc2FtdiDmx.OwnedTokens

/-! `_loop` over any number of sessions, with everything it acquires as a token. What the
calls to the system return is chosen by the session, which step fails included. -/
namespace Osc2FtdiDmx.SessionTokens
open OwnedTokens

inductive Token
  | ring (address : ℕ)
  | descriptor (number : ℕ)
  | context
  | handle
  | thread
  deriving DecidableEq, Repr

abbrev Checked := Except (Misuse Token)

/-- What a URL asks for: the address family's kind of socket, or a serial device. -/
inductive Kind
  | datagram
  | stream
  | serial
  deriving DecidableEq, Repr

/-- `server` for a URL without a node. -/
structure Url where
  kind : Kind
  server : Bool
  deriving DecidableEq, Repr

/-- The fields of `app_t` and of its stream that decide what is released. -/
structure App where
  url : Url
  rx : Option ℕ
  tx : Option ℕ
  sock : ℤ
  fd : ℤ
  server : Bool
  connected : Bool
  owned : Multiset Token
  deriving DecidableEq

/-- The zero-initialised `app_t`: both descriptors of its stream are 0. -/
def zeroed (url : Url) : App := ⟨url, none, none, 0, 0, false, false, 0⟩

def acquire (t : Token) (app : App) : App := { app with owned := t ::ₘ app.owned }

def releaseToken (t : Token) (app : App) : Checked App := do
  return { app with owned := ← release t app.owned }

/-- A negative number names no descriptor. -/
def descriptor (d : ℤ) : Option Token := if 0 ≤ d then some (.descriptor d.toNat) else none

/-- `_close_socket(&stream->fd)`. -/
def closeFd (app : App) : Checked App := do
  let owned ← releaseNamed (descriptor app.fd) app.owned
  return { app with fd := -1, owned }

/-- `_close_socket(&stream->sock)`. -/
def closeSock (app : App) : Checked App := do
  let owned ← releaseNamed (descriptor app.sock) app.owned
  return { app with sock := -1, owned }

/-- `lv2_osc_stream_deinit`. -/
def streamDeinit (app : App) : Checked App := do closeSock (← closeFd app)

/-- `varchunk_free` where the pointer is not NULL; the pointer stays. -/
def varchunkFree (ring : Option ℕ) (app : App) : Checked App := do
  return { app with owned := ← releaseNamed (ring.map .ring) app.owned }

def oscDeinit (app : App) : Checked App := do
  let app ← streamDeinit app
  let app ← varchunkFree app.rx app
  varchunkFree app.tx app

/-- How `_lv2_osc_stream_reinit` ends. It fails before or after it got a descriptor, and
the event it then returns is 0 where `errno` is. -/
inductive Opening
  | opened (sock : ℕ) (connects : Bool)
  | failed (sock : Option ℕ) (reported : Bool)
  deriving DecidableEq, Repr

/-- A descriptor that the system returned, or -1. -/
def number (d : Option ℕ) : ℤ := d.elim (-1) fun n => n

def openSock (sock : Option ℕ) (app : App) : App :=
  { app with sock := number sock, owned := tokens (sock.map .descriptor) + app.owned }

/-- `_lv2_osc_stream_reinit`; the second result says whether its event is not 0. -/
def streamReinit (opening : Opening) (app : App) : Checked (App × Bool) := do
  let app ← streamDeinit app
  let app := { app with server := app.server || app.url.server }
  match opening with
  | .opened sock connects =>
      return ({ openSock (some sock) app with connected := app.connected || connects }, false)
  | .failed sock reported => return (← closeSock (openSock sock app), reported)

/-- `lv2_osc_stream_init`: the old descriptors are overwritten and not closed. -/
def streamInit (opening : Opening) (app : App) : Checked (App × Bool) :=
  streamReinit opening { app with sock := -1, fd := -1, server := false, connected := false }

/-- The calls of `_ftdi_init`, in their order. -/
inductive FtdiCall
  | init
  | setInterface
  | usbOpen
  | usbReset
  | setBaudrate
  | setLineProperty
  | usbPurgeBuffers
  | setflowctrl
  | setrts
  deriving DecidableEq, Repr

/-- `_ftdi_deinit`: `ftdi_usb_close` and `ftdi_deinit`. -/
def ftdiDeinit (app : App) : Checked App := do
  releaseToken .context (← releaseToken .handle app)

/-- `_ftdi_init`, up to the call that fails; the second result is false where it returns
-1. -/
def ftdiInit (fails : Option FtdiCall) (app : App) : Checked (App × Bool) := do
  match fails with
  | none => return (acquire .handle (acquire .context app), true)
  | some .init => return (app, false)
  | some .setInterface | some .usbOpen =>
      return (← releaseToken .context (acquire .context app), false)
  | some _ => return (← ftdiDeinit (acquire .handle (acquire .context app)), false)

/-- What the calls of one `lv2_osc_stream_pollin` return. -/
structure Pollin where
  polled : Bool
  accepted : Option ℕ
  reopened : Opening
  connects : Bool
  sendCloses : Bool
  recvCloses : Bool
  deriving DecidableEq, Repr

/-- What happens while the polling loop and the `_beat` thread run. -/
inductive Event
  | pollin (p : Pollin)
  | beat
  deriving DecidableEq, Repr

/-- The choices of one session. -/
structure Session where
  rx : Option ℕ
  tx : Option ℕ
  opening : Opening
  ftdi : Option FtdiCall
  thread : Bool
  events : List Event
  deriving DecidableEq, Repr

/-- `varchunk_new`. -/
def varchunkNew (ring : Option ℕ) (app : App) : App :=
  { app with owned := tokens (ring.map .ring) + app.owned }

/-- `_osc_init`; the second result is false where it returns -1. -/
def oscInit (s : Session) (app : App) : Checked (App × Bool) := do
  let app := { varchunkNew s.rx app with rx := s.rx }
  if app.rx = none then return (← oscDeinit app, false)
  else
    let app := { varchunkNew s.tx app with tx := s.tx }
    if app.tx = none then return (← oscDeinit app, false)
    else
      let (app, reported) ← streamInit s.opening app
      if reported then return (← oscDeinit app, false)
      else return (app, true)

def useRing (ring : Option ℕ) (app : App) : Checked Unit :=
  match ring with
  | none => .error .null
  | some address => use (.ring address) app.owned

/-- A call with a negative number fails and touches no descriptor. -/
def useDescriptor (d : ℤ) (app : App) : Checked Unit := useNamed (descriptor d) app.owned

/-- The start of `_lv2_osc_stream_run_tcp`. -/
def handleConnection (p : Pollin) (app : App) : Checked App := do
  if app.connected then return app
  else if app.server then
    useDescriptor app.sock app
    return { app with
      fd := number p.accepted
      connected := p.accepted.isSome
      owned := tokens (p.accepted.map .descriptor) + app.owned }
  else
    let app ← if app.sock < 0 then Prod.fst <$> streamReinit p.reopened app else pure app
    useDescriptor app.sock app
    return { app with connected := app.connected || (p.connects && decide (0 ≤ app.sock)) }

/-- The descriptor that data goes through. -/
def peer (app : App) : ℤ := if app.server then app.fd else app.sock

def closePeer (app : App) : Checked App := do
  let app ← if app.server then closeFd app else closeSock app
  return { app with connected := false }

/-- The part of `_lv2_osc_stream_run_tcp` that sends from, or receives into, `ring`. -/
def transfer (ring : Option ℕ) (closes : Bool) (app : App) : Checked App := do
  if app.connected ∧ 0 ≤ peer app then
    useRing ring app
    useDescriptor (peer app) app
    if closes then closePeer app else return app
  else return app

def runTcp (p : Pollin) (app : App) : Checked App := do
  let app ← handleConnection p app
  let app ← transfer app.tx p.sendCloses app
  transfer app.rx p.recvCloses app

/-- `_lv2_osc_stream_run_udp` and `_lv2_osc_stream_run_ser` close nothing. -/
def runSock (app : App) : Checked App := do
  useRing app.tx app
  useRing app.rx app
  useDescriptor app.sock app
  return app

def streamPollin (p : Pollin) (app : App) : Checked App := do
  useDescriptor app.sock app
  useDescriptor app.fd app
  if p.polled then
    match app.url.kind with
    | .stream => runTcp p app
    | .datagram | .serial => runSock app
  else return app

/-- One round of the `_beat` thread. -/
def beat (app : App) : Checked App := do
  use .thread app.owned
  useRing app.rx app
  use .context app.owned
  use .handle app.owned
  return app

def event (app : App) : Event → Checked App
  | .pollin p => streamPollin p app
  | .beat => beat app

/-- `_loop` from the creation of the thread on. -/
def polling (events : List Event) (app : App) : Checked App := do
  let app ← events.foldlM event (acquire .thread app)
  let app ← releaseToken .thread app
  let app ← ftdiDeinit app
  oscDeinit app

def loop (app : App) (s : Session) : Checked App := do
  let (app, started) ← oscInit s app
  if started then
    let (app, started) ← ftdiInit s.ftdi app
    if started then
      if s.thread then polling s.events app
      else oscDeinit (← ftdiDeinit app)
    else oscDeinit app
  else return app

/-- The sessions of `main`, one after the other. -/
def loops (url : Url) (sessions : List Session) : Checked App :=
  sessions.foldlM loop (zeroed url)

section Holding
variable {app : App} {a b : ℕ} {rest : Multiset Token} {t : Token}

/-- What the app points to, and the rest. -/
def held (app : App) (rest : Multiset Token) : Multiset Token :=
  tokens (descriptor app.fd) + (tokens (descriptor app.sock) +
    (tokens (app.rx.map Token.ring) + (tokens (app.tx.map Token.ring) + rest)))

lemma held_cons : held app (t ::ₘ rest) = t ::ₘ held app rest := by
  simp only [held, Multiset.add_cons]

lemma descriptor_number (d : Option ℕ) : descriptor (number d) = d.map .descriptor := by
  cases d with
  | none => simp [descriptor, number]
  | some n => simp [descriptor, number]

lemma openSock_owned {sock : Option ℕ} :
    (openSock sock app).owned = tokens (descriptor (openSock sock app).sock) + app.owned := by
  simp [openSock, descriptor_number]

@[simp] lemma descriptor_closed : descriptor (-1) = none := by simp [descriptor]

lemma closeFd_released (h : app.owned = tokens (descriptor app.fd) + rest) :
    closeFd app = .ok { app with fd := -1, owned := rest } := by
  simp only [closeFd, h, releaseNamed_tokens]
  rfl

lemma closeSock_released (h : app.owned = tokens (descriptor app.sock) + rest) :
    closeSock app = .ok { app with sock := -1, owned := rest } := by
  simp only [closeSock, h, releaseNamed_tokens]
  rfl

lemma varchunkFree_released {ring : Option ℕ}
    (h : app.owned = tokens (ring.map .ring) + rest) :
    varchunkFree ring app = .ok { app with owned := rest } := by
  simp only [varchunkFree, h, releaseNamed_tokens]
  rfl

lemma releaseToken_cons (h : app.owned = t ::ₘ rest) :
    releaseToken t app = .ok { app with owned := rest } := by
  simp only [releaseToken, h, release_cons]
  rfl

lemma streamDeinit_released
    (h : app.owned = tokens (descriptor app.fd) + (tokens (descriptor app.sock) + rest)) :
    streamDeinit app = .ok { app with sock := -1, fd := -1, owned := rest } := by
  rw [streamDeinit, closeFd_released h]
  exact closeSock_released rfl

lemma oscDeinit_released (h : app.owned = held app rest) :
    oscDeinit app = .ok { app with sock := -1, fd := -1, owned := rest } := by
  rw [oscDeinit, streamDeinit_released h]
  show (varchunkFree app.rx _ >>= fun app => varchunkFree app.tx app) = _
  rw [varchunkFree_released rfl]
  exact varchunkFree_released rfl

/-- Both rings are there, and only a server with a peer has a descriptor for it. -/
structure Running (a b : ℕ) (rest : Multiset Token) (app : App) : Prop where
  holds : app.owned = held app rest
  rx : app.rx = some a
  tx : app.tx = some b
  served : app.fd = -1 ∨ app.connected = true ∧ app.server = true

lemma Running.acquire (h : Running a b rest app) :
    Running a b (t ::ₘ rest) (SessionTokens.acquire t app) :=
  ⟨(congrArg (t ::ₘ ·) h.holds).trans held_cons.symm, h.rx, h.tx, h.served⟩

lemma Running.release (h : Running a b (t ::ₘ rest) app) :
    Yields (releaseToken t app) (Running a b rest) :=
  .of_eq (releaseToken_cons (h.holds.trans held_cons)) ⟨rfl, h.rx, h.tx, h.served⟩

lemma Running.ftdiDeinit (h : Running a b (.handle ::ₘ .context ::ₘ rest) app) :
    Yields (SessionTokens.ftdiDeinit app) (Running a b rest) :=
  h.release.bind fun _ h => h.release

/-- `_ftdi_init` leaves behind both of its tokens or none. -/
lemma Running.ftdiInit (h : Running a b rest app) (fails : Option FtdiCall) :
    Yields (SessionTokens.ftdiInit fails app) fun r =>
      Running a b (if r.2 then .handle ::ₘ .context ::ₘ rest else rest) r.1 := by
  have hcontext := h.acquire (t := .context)
  have hhandle := hcontext.acquire (t := .handle)
  rcases fails with _ | _ | _
  · exact .pure hhandle
  · exact .pure h
  iterate 2 exact hcontext.release.bind fun _ h => .pure h
  all_goals exact hhandle.ftdiDeinit.bind fun _ h => .pure h

lemma Running.streamReinit (h : Running a b rest app) (opening : Opening) :
    Yields (SessionTokens.streamReinit opening app) fun r => Running a b rest r.1 := by
  refine .bind_eq (streamDeinit_released h.holds) ?_
  cases opening with
  | opened sock connects =>
    refine .pure ⟨?_, h.rx, h.tx, .inl rfl⟩
    simp [held, openSock, descriptor_number]
  | failed sock reported =>
    refine .bind_eq (closeSock_released openSock_owned) (.pure ⟨?_, h.rx, h.tx, .inl rfl⟩)
    simp [held, openSock]

lemma Running.rx_mem (h : Running a b rest app) : Token.ring a ∈ app.owned := by
  simp [h.holds, held, h.rx]

lemma Running.tx_mem (h : Running a b rest app) : Token.ring b ∈ app.owned := by
  simp [h.holds, held, h.tx]

lemma Running.useRing_rx (h : Running a b rest app) : useRing app.rx app = .ok () := by
  rw [h.rx]
  exact use_of_mem h.rx_mem

lemma Running.useRing_tx (h : Running a b rest app) : useRing app.tx app = .ok () := by
  rw [h.tx]
  exact use_of_mem h.tx_mem

lemma Running.useDescriptor_fd (h : Running a b rest app) :
    useDescriptor app.fd app = .ok () :=
  useNamed_tokens (h.holds ▸ Multiset.le_add_right _ _)

lemma Running.useDescriptor_sock (h : Running a b rest app) :
    useDescriptor app.sock app = .ok () :=
  useNamed_tokens (h.holds ▸ (Multiset.le_add_right _ _).trans (Multiset.le_add_left _ _))

lemma Running.useDescriptor_peer (h : Running a b rest app) :
    useDescriptor (peer app) app = .ok () := by
  rw [peer]
  split_ifs
  · exact h.useDescriptor_fd
  · exact h.useDescriptor_sock

lemma Running.handleConnection (h : Running a b rest app) (p : Pollin) :
    Yields (SessionTokens.handleConnection p app) (Running a b rest) := by
  rw [SessionTokens.handleConnection]
  by_cases hconnected : app.connected = true
  · rw [if_pos hconnected]
    exact .pure h
  have hfd : app.fd = -1 := h.served.resolve_right fun hpeer => hconnected hpeer.1
  rw [if_neg hconnected]
  split_ifs with hserver hsock
  · refine .bind_eq h.useDescriptor_sock ?_
    refine .pure ⟨?_, h.rx, h.tx, ?_⟩
    · have hholds := h.holds
      simp only [held, hfd, descriptor_closed, tokens_none, zero_add] at hholds
      simp only [held, hholds, descriptor_number]
    · cases p.accepted with
      | none => exact .inl rfl
      | some n => exact .inr ⟨rfl, hserver⟩
  · obtain ⟨r, hr, hrunning⟩ := h.streamReinit p.reopened
    refine .bind_eq (congrArg (Prod.fst <$> ·) hr) (.bind_eq hrunning.useDescriptor_sock ?_)
    refine .pure ⟨hrunning.holds, hrunning.rx, hrunning.tx, hrunning.served.imp_right ?_⟩
    exact fun hpeer => ⟨by simp [hpeer.1], hpeer.2⟩
  · refine .bind_eq (a := app) rfl (.bind_eq h.useDescriptor_sock ?_)
    exact .pure ⟨h.holds, h.rx, h.tx, .inl hfd⟩

lemma Running.closePeer (h : Running a b rest app) :
    Yields (SessionTokens.closePeer app) (Running a b rest) := by
  rw [SessionTokens.closePeer]
  split_ifs with hserver
  · refine .bind_eq (closeFd_released h.holds) (.pure ⟨?_, h.rx, h.tx, .inl rfl⟩)
    simp [held]
  · have hfd : app.fd = -1 := h.served.resolve_right fun hpeer => hserver hpeer.2
    have hholds := h.holds
    simp only [held, hfd, descriptor_closed, tokens_none, zero_add] at hholds
    refine .bind_eq (closeSock_released hholds) (.pure ⟨?_, h.rx, h.tx, .inl hfd⟩)
    simp [held, hfd]

/-- Only the pointers of the two rings are used. -/
lemma Running.transfer (h : Running a b rest app) {ring : Option ℕ}
    (hring : useRing ring app = .ok ()) (closes : Bool) :
    Yields (SessionTokens.transfer ring closes app) (Running a b rest) := by
  rw [SessionTokens.transfer]
  split_ifs
  · exact .bind_eq hring (.bind_eq h.useDescriptor_peer h.closePeer)
  · exact .bind_eq hring (.bind_eq h.useDescriptor_peer (.pure h))
  · exact .pure h

lemma Running.runTcp (h : Running a b rest app) (p : Pollin) :
    Yields (SessionTokens.runTcp p app) (Running a b rest) :=
  (h.handleConnection p).bind fun _ h =>
    (h.transfer h.useRing_tx p.sendCloses).bind fun _ h => h.transfer h.useRing_rx p.recvCloses

lemma Running.runSock (h : Running a b rest app) :
    Yields (SessionTokens.runSock app) (Running a b rest) :=
  .bind_eq h.useRing_tx (.bind_eq h.useRing_rx (.bind_eq h.useDescriptor_sock (.pure h)))

lemma Running.streamPollin (h : Running a b rest app) (p : Pollin) :
    Yields (SessionTokens.streamPollin p app) (Running a b rest) := by
  refine .bind_eq h.useDescriptor_sock (.bind_eq h.useDescriptor_fd ?_)
  split_ifs
  · cases app.url.kind with
    | stream => exact h.runTcp p
    | datagram | serial => exact h.runSock
  · exact .pure h

/-- What `_loop` acquired besides the rings and the descriptors when it starts polling. -/
def session : Multiset Token := .thread ::ₘ .handle ::ₘ .context ::ₘ 0

lemma Running.beat (h : Running a b session app) :
    Yields (SessionTokens.beat app) (Running a b session) := by
  have howned : ∀ t ∈ session, use t app.owned = .ok () := fun t ht =>
    use_of_mem (by simp [h.holds, held, ht])
  refine .bind_eq (howned .thread ?_) (.bind_eq h.useRing_rx
    (.bind_eq (howned .context ?_) (.bind_eq (howned .handle ?_) (.pure h)))) <;> simp [session]

/-- Between two sessions nothing is owned, and the pointer `rb.tx` is left over. -/
structure Ended (tx : Option ℕ) (app : App) : Prop where
  tx : app.tx = tx
  owned : app.owned = 0
  sock : app.sock = -1
  fd : app.fd = -1

lemma ended_oscDeinit (h : app.owned = held app 0) :
    Yields (oscDeinit app) (Ended app.tx) :=
  .of_eq (oscDeinit_released h) ⟨rfl, rfl, rfl, rfl⟩

lemma Running.oscDeinit (h : Running a b 0 app) :
    Yields (SessionTokens.oscDeinit app) (Ended (some b)) :=
  h.tx ▸ ended_oscDeinit h.holds

lemma Running.polling (h : Running a b (.handle ::ₘ .context ::ₘ 0) app)
    (events : List Event) : Yields (SessionTokens.polling events app) (Ended (some b)) := by
  have hevents : Yields (events.foldlM event (SessionTokens.acquire .thread app))
      (Running a b session) := .foldlM h.acquire fun app e h => by
    cases e with
    | pollin p => exact h.streamPollin p
    | beat => exact h.beat
  exact hevents.bind fun _ h => h.release.bind fun _ h => h.ftdiDeinit.bind fun _ h =>
    h.oscDeinit

/-- A session that gets both rings gives everything back, wherever it ends. -/
lemma loop_rings (howned : app.owned = 0) {s : Session} (ha : s.rx = some a)
    (hb : s.tx = some b) : Yields (loop app s) (Ended (some b)) := by
  have hinit : Yields (oscInit s app) fun r =>
      if r.2 then Running a b 0 r.1 else Ended (some b) r.1 := by
    simp only [oscInit, ha, hb, reduceCtorEq, if_false]
    refine Yields.bind (P := fun r => Running a b 0 r.1) ?_ ?_
    · refine Running.streamReinit ⟨?_, rfl, rfl, .inl rfl⟩ s.opening
      simp [held, varchunkNew, howned, add_comm]
    · rintro ⟨app, _ | _⟩ h
      · exact .pure h
      · exact h.oscDeinit.bind fun _ h => .pure h
  refine hinit.bind ?_
  rintro ⟨app, _ | _⟩ h
  · exact .pure h
  · refine (Running.ftdiInit h s.ftdi).bind ?_
    rintro ⟨app, _ | _⟩ h
    · exact Running.oscDeinit h
    · change Running a b (.handle ::ₘ .context ::ₘ 0) app at h
      show Yields (if s.thread then polling s.events app else _) _
      split_ifs
      · exact h.polling s.events
      · exact h.ftdiDeinit.bind fun _ h => h.oscDeinit

lemma loop_failed {s : Session} {failed : App}
    (h : oscInit s app = oscDeinit failed >>= fun app => pure (app, false)) :
    loop app s = oscDeinit failed := by
  rw [loop, h]
  cases oscDeinit failed with
  | error e => rfl
  | ok app => rfl

/-- Without `rb.rx` the stream and the rest of the app are as the last session left them. -/
lemma loop_rx_none {s : Session} (ha : s.rx = none) :
    loop app s = oscDeinit { app with rx := none } := by
  refine loop_failed ?_
  simp only [oscInit, ha, if_true, varchunkNew, Option.map_none, tokens_none, zero_add]

lemma loop_tx_none {s : Session} (ha : s.rx = some a) (hb : s.tx = none) :
    loop app s =
      oscDeinit { app with rx := some a, tx := none, owned := {.ring a} + app.owned } := by
  refine loop_failed ?_
  simp [oscInit, ha, hb, varchunkNew]

end Holding

section Sessions
variable {url : Url} {before : List Session} {s : Session} {app : App}

/-- The last session that got its `rb.rx`: `rb.tx` is assigned in it and not since. -/
def lastRx (before : List Session) : Option Session :=
  (before.filter fun s => s.rx.isSome).getLast?

/-- The first session gets both rings. A session that does not get `rb.rx` comes after one
that assigned NULL to `rb.tx`. -/
def Acquires (before : List Session) (s : Session) : Prop :=
  (before = [] → s.rx ≠ none ∧ s.tx ≠ none) ∧
    (s.rx = none → ∃ d, lastRx before = some d ∧ d.tx = none)

lemma lastRx_some {a : ℕ} (h : s.rx = some a) : lastRx (before ++ [s]) = some s := by
  simp [lastRx, h]

lemma lastRx_none (h : s.rx = none) : lastRx (before ++ [s]) = lastRx before := by
  simp [lastRx, h]

/-- The app between the sessions, none of which misused a token. -/
def Between (url : Url) (before : List Session) (app : App) : Prop :=
  before = [] ∧ app = zeroed url ∨
    ∃ d, before ≠ [] ∧ lastRx before = some d ∧ Ended d.tx app

lemma Between.owned (h : Between url before app) : app.owned = 0 := by
  obtain ⟨-, rfl⟩ | ⟨d, -, -, hended⟩ := h
  · rfl
  · exact hended.owned

/-- The descriptors of a zeroed stream are closed though nothing opened them. -/
lemma loop_zeroed (hs : s.rx = none ∨ s.tx = none) :
    loop (zeroed url) s = .error (.notOwned (.descriptor 0)) := by
  cases ha : s.rx with
  | none =>
    rw [loop_rx_none ha]
    rfl
  | some a =>
    rw [loop_tx_none ha (hs.resolve_left (by simp [ha]))]
    have hclose : closeFd ⟨url, some a, none, 0, 0, false, false, {.ring a} + 0⟩ =
        .error (.notOwned (.descriptor 0)) := by
      simp [closeFd, descriptor, releaseNamed, release]
    rw [oscDeinit, streamDeinit, zeroed, hclose]
    rfl

lemma loop_step (h : Between url before app) (hs : Acquires before s) :
    Yields (loop app s) (Between url (before ++ [s])) := by
  have hended (tx : Option ℕ) (hloop : Yields (loop app s) (Ended tx))
      (hlast : ∃ d, lastRx (before ++ [s]) = some d ∧ d.tx = tx) :
      Yields (loop app s) (Between url (before ++ [s])) := by
    obtain ⟨app', happ', hended⟩ := hloop
    obtain ⟨d, hd, rfl⟩ := hlast
    exact ⟨app', happ', .inr ⟨d, by simp, hd, hended⟩⟩
  cases ha : s.rx with
  | none =>
    obtain ⟨d, hd, htx⟩ := hs.2 ha
    obtain ⟨rfl, -⟩ | ⟨d', -, hd', h⟩ := h
    · simp [lastRx] at hd
    · cases hd.symm.trans hd'
      refine hended none ?_ ⟨d, (lastRx_none ha).trans hd, htx⟩
      rw [loop_rx_none ha, ← htx, ← h.tx]
      refine ended_oscDeinit ?_
      simp [held, h.owned, h.sock, h.fd, h.tx, htx]
  | some a =>
    cases hb : s.tx with
    | some b => exact hended (some b) (loop_rings h.owned ha hb) ⟨s, lastRx_some ha, hb⟩
    | none =>
      obtain ⟨hnil, -⟩ | ⟨d', -, -, h⟩ := h
      · exact absurd hb (hs.1 hnil).2
      · refine hended none ?_ ⟨s, lastRx_some ha, hb⟩
        rw [loop_tx_none ha hb]
        refine ended_oscDeinit ?_
        simp [held, h.owned, h.sock, h.fd]

/-- The ring of an earlier session is freed again. -/
lemma oscDeinit_stale {tx : ℕ} (h : Ended (some tx) app) :
    oscDeinit { app with rx := none } = .error (.notOwned (.ring tx)) := by
  obtain ⟨url, rx, _, _, _, server, connected, _⟩ := app
  obtain ⟨htx, howned, hsock, hfd⟩ := h
  cases htx
  cases howned
  cases hsock
  cases hfd
  rfl

lemma loop_error (h : Between url before app) (hs : ¬ Acquires before s) (app' : App) :
    loop app s ≠ .ok app' := by
  obtain ⟨rfl, rfl⟩ | ⟨d, hne, hd, h⟩ := h
  · have hnone : s.rx = none ∨ s.tx = none := by
      by_contra hboth
      rw [not_or] at hboth
      exact hs ⟨fun _ => hboth, fun hrx => absurd hrx hboth.1⟩
    simp [loop_zeroed hnone]
  · have hnone : s.rx = none := by
      by_contra hrx
      exact hs ⟨fun hnil => absurd hnil hne, fun hnone => absurd hnone hrx⟩
    obtain ⟨tx, htx⟩ : ∃ tx, d.tx = some tx := Option.ne_none_iff_exists'.mp fun htx =>
      hs ⟨fun hnil => absurd hnil hne, fun _ => ⟨d, hd, htx⟩⟩
    simp [loop_rx_none hnone, oscDeinit_stale (htx ▸ h)]

lemma loops_snoc : loops url (before ++ [s]) = loops url before >>= fun app => loop app s := by
  simp only [loops, List.foldlM_append, List.foldlM_cons, List.foldlM_nil, bind_pure]

lemma between_loops (url : Url) {sessions : List Session}
    (h : ∀ before s, before ++ [s] <+: sessions → Acquires before s) :
    Yields (loops url sessions) (Between url sessions) := by
  induction sessions using List.reverseRecOn with
  | nil => exact .pure (.inl ⟨rfl, rfl⟩)
  | append_singleton sessions s ih =>
    rw [loops_snoc]
    have hfront := ih fun before e hinitial =>
      h before e (hinitial.trans (List.prefix_append _ _))
    exact hfront.bind fun app happ => loop_step happ (h sessions s List.prefix_rfl)

/-- Where no session ends in an error, each of them met the condition. -/
lemma acquires_of_loops {sessions : List Session}
    (h : ∀ before, before <+: sessions → ∃ app, loops url before = .ok app) :
    ∀ before s, before ++ [s] <+: sessions → Acquires before s := by
  induction sessions using List.reverseRecOn with
  | nil => simp
  | append_singleton sessions s ih =>
    have hfront := ih fun before hinitial => h before (hinitial.trans (List.prefix_append _ _))
    have hlast : Acquires sessions s := by
      obtain ⟨app, happ, hbetween⟩ := between_loops url hfront
      obtain ⟨app', happ'⟩ := h _ List.prefix_rfl
      rw [loops_snoc, happ] at happ'
      by_contra hnot
      exact loop_error hbetween hnot app' happ'
    intro before e hinitial
    obtain heq | hinitial := List.prefix_concat_iff.mp hinitial
    · obtain ⟨rfl, rfl⟩ : before = sessions ∧ e = s := by simpa using heq
      exact hlast
    · exact hfront before e hinitial

end Sessions

/-- Every token is released by the session that acquired it, and none is released or used
without being owned, exactly where each session meets `Acquires`. -/
theorem loops_released_iff (url : Url) (sessions : List Session) :
    (∀ before, before <+: sessions → ∃ app, loops url before = .ok app ∧ app.owned = 0) ↔
      ∀ before s, before ++ [s] <+: sessions → Acquires before s := by
  constructor
  · intro h
    exact acquires_of_loops fun before hinitial => (h before hinitial).imp fun _ h => h.1
  · intro h before hinitial
    obtain ⟨app, happ, hbetween⟩ := between_loops url fun earlier s hearlier =>
      h earlier s (hearlier.trans hinitial)
    exact ⟨app, happ, hbetween.owned⟩

/-- The first session does not get `rb.rx`, and descriptor 0 is closed. -/
theorem loops_close_zero :
    ¬ ∀ (url : Url) (sessions : List Session) (before : List Session), before <+: sessions →
      ∃ app, loops url before = .ok app ∧ app.owned = 0 := by
  intro h
  let refused : Session := ⟨none, none, .failed none true, none, true, []⟩
  obtain ⟨app, happ, -⟩ := h ⟨.datagram, true⟩ [refused] _ List.prefix_rfl
  have herror : loops ⟨.datagram, true⟩ [refused] = .error (.notOwned (.descriptor 0)) := rfl
  cases herror.symm.trans happ

/-- A later session without `rb.rx` frees the ring `rb.tx` of the session before it. -/
example : loops ⟨.datagram, true⟩
    [⟨some 1, some 2, .opened 3 false, none, true, [.beat]⟩,
      ⟨none, none, .failed none true, none, true, []⟩] = .error (.notOwned (.ring 2)) := by
  rfl

end Osc2FtdiDmx.SessionTokens
