import Osc2FtdiDmx.StreamSend

/-! How `_lv2_osc_stream_reinit` reads its URL: the strings that it cuts out of a copy by
writing zeros into it, and the URLs that it takes. -/
namespace Osc2FtdiDmx.StreamUrl
open BytesEndian
open StreamSend (Framing)

def percent : Byte := 0x25
def colon : Byte := 0x3a
def openBracket : Byte := 0x5b
def closeBracket : Byte := 0x5d

def ascii (cs : List Char) : List Byte := cs.map fun c => BitVec.ofNat 8 c.toNat

/-- The errors that the reading of the URL can set. -/
inductive Errno
  | noProtoOpt
  | destAddrReq
  | prototype
  deriving DecidableEq, Repr

inductive Scheme
  | udp
  | tcp
  | slipTcp
  | prefixTcp
  | serial
  deriving DecidableEq, Repr

/-- `udp_prefix`, `tcp_prefix`, `tcp_slip_prefix`, `tcp_prefix_prefix` and `ser_prefix`. -/
def Scheme.text : Scheme → List Byte
  | .udp => ascii ['o', 's', 'c', '.', 'u', 'd', 'p', ':', '/', '/']
  | .tcp => ascii ['o', 's', 'c', '.', 't', 'c', 'p', ':', '/', '/']
  | .slipTcp => ascii ['o', 's', 'c', '.', 's', 'l', 'i', 'p', '.', 't', 'c', 'p', ':', '/', '/']
  | .prefixTcp => ascii
      ['o', 's', 'c', '.', 'p', 'r', 'e', 'f', 'i', 'x', '.', 't', 'c', 'p', ':', '/', '/']
  | .serial => ascii ['o', 's', 'c', '.', 's', 'e', 'r', 'i', 'a', 'l', ':', '/', '/']

/-- In the order in which they are tried. -/
def schemes : List Scheme := [.udp, .tcp, .slipTcp, .prefixTcp, .serial]

/-- `AF_INET` and `AF_INET6`. -/
inductive Family
  | inet
  | inet6
  deriving DecidableEq, Repr

/-- `SOCK_DGRAM` with `IPPROTO_UDP`, and `SOCK_STREAM` with `IPPROTO_TCP`. -/
inductive Socket
  | udp
  | tcp
  deriving DecidableEq, Repr

/-- The fields of the stream that the URL decides; `none` is the 0 that they start with. -/
structure Config where
  family : Option Family
  socket : Option Socket
  server : Bool
  slip : Bool
  serial : Bool
  deriving DecidableEq, Repr

def zeroed : Config := ⟨none, none, false, false, false⟩

def Scheme.apply (c : Config) : Scheme → Config
  | .udp => { c with slip := false, family := some .inet, socket := some .udp }
  | .tcp => { c with slip := true, family := some .inet, socket := some .tcp }
  | .slipTcp => { c with slip := true, family := some .inet, socket := some .tcp }
  | .prefixTcp => { c with slip := false, family := some .inet, socket := some .tcp }
  | .serial => { c with slip := true, serial := true }

/-- What the system calls get: the path for `open`, or the strings for `getaddrinfo` and
`if_nametoindex`. -/
inductive Target
  | device (path : List Byte)
  | address (node iface : Option (List Byte)) (service : List Byte)
  deriving DecidableEq, Repr

/-- The string at `p`. -/
def cStr (dup : List Byte) (p : ℕ) : List Byte := (dup.drop p).takeWhile (· ≠ 0)

def strchr (dup : List Byte) (p : ℕ) (c : Byte) : Option ℕ :=
  if c ∈ cStr dup p then some (p + (cStr dup p).idxOf c) else none

/-- From the search for the colon on. -/
def reinitService (c : Config) (dup : List Byte) (node ptr : ℕ) (iface : Option ℕ) :
    Config × Except Errno Target :=
  match strchr dup ptr colon with
  | none => (c, .error .destAddrReq)
  | some ptr =>
      let dup := dup.set ptr 0
      let service := cStr dup (ptr + 1)
      let iface := iface.map (cStr dup)
      if cStr dup node = [] then ({ c with server := true }, .ok (.address none iface service))
      else (c, .ok (.address (some (cStr dup node)) iface service))

/-- From the search for a bracket on. -/
def reinitEnd (c : Config) (dup : List Byte) (node ptr : ℕ) (iface : Option ℕ) :
    Config × Except Errno Target :=
  match strchr dup ptr closeBracket with
  | none => reinitService c dup node ptr iface
  | some tmp =>
      if c.family ≠ some .inet6 then (c, .error .destAddrReq)
      else reinitService c (dup.set tmp 0) node (tmp + 1) iface

/-- The branch `!stream->serial`. -/
def reinitAddress (c : Config) (dup : List Byte) (ptr : ℕ) : Config × Except Errno Target :=
  let bracket := dup.getD ptr 0 = openBracket
  let c := if bracket then { c with family := some .inet6 } else c
  let node := if bracket then ptr + 1 else ptr
  match strchr dup node percent with
  | none => reinitEnd c dup node node none
  | some tmp =>
      if c.family ≠ some .inet6 then (c, .error .prototype)
      else reinitEnd c (dup.set tmp 0) node (tmp + 1) (some (tmp + 1))

/-- `_lv2_osc_stream_reinit` up to the first call to the system, on the string `url`. -/
def streamReinit (c : Config) (url : List Byte) : Config × Except Errno Target :=
  let dup := url ++ [0]
  match schemes.find? fun s => s.text.isPrefixOf dup with
  | none => (c, .error .noProtoOpt)
  | some s =>
      let c := s.apply c
      let ptr := s.text.length
      if dup.getD ptr 0 = 0 then (c, .error .destAddrReq)
      else if c.serial then (c, .ok (.device (cStr dup ptr)))
      else reinitAddress c dup ptr

/-- `lv2_osc_stream_init`, with a field of `size` bytes for the URL. -/
def streamInit (size : ℕ) (url : List Byte) : Config × Except Errno Target :=
  streamReinit zeroed (url.take (size - 1))

/-- The loops that `lv2_osc_stream_run` chooses from, with the framing they use. -/
inductive Loop
  | udp
  | tcp (framing : Framing)
  | ser (framing : Framing)
  deriving DecidableEq, Repr

def streamRun (c : Config) : Loop :=
  let framing := if c.slip then Framing.slip else .sized
  match c.socket with
  | some .udp => .udp
  | some .tcp => .tcp framing
  | none => .ser framing

section Strings
variable {dup front s rest : List Byte} {p : ℕ} {c : Byte}

lemma cStr_at (hdup : dup = front ++ (s ++ 0 :: rest)) (hp : p = front.length)
    (hs : (0 : Byte) ∉ s) : cStr dup p = s := by
  rw [hdup, hp, cStr, List.drop_left, List.takeWhile_append_of_pos fun b hb => by
    simpa using ne_of_mem_of_not_mem hb hs]
  simp

lemma strchr_hit (hdup : dup = front ++ (s ++ c :: rest)) (hp : p = front.length) (hc : c ≠ 0)
    (hmem : c ∉ s) (hs : (0 : Byte) ∉ s) : strchr dup p c = some (front ++ s).length := by
  have hstr : cStr dup p = s ++ c :: rest.takeWhile (· ≠ 0) := by
    rw [hdup, hp, cStr, List.drop_left, List.takeWhile_append_of_pos fun b hb => by
      simpa using ne_of_mem_of_not_mem hb hs]
    rw [List.takeWhile_cons_of_pos (by simpa using hc)]
  rw [strchr, hstr, if_pos (by simp), List.idxOf_append_of_notMem hmem, hp]
  simp

lemma strchr_miss (hdup : dup = front ++ (s ++ 0 :: rest)) (hp : p = front.length)
    (hmem : c ∉ s) (hs : (0 : Byte) ∉ s) : strchr dup p c = none := by
  rw [strchr, cStr_at hdup hp hs, if_neg hmem]

/-- A zero is written over the byte that was found. -/
lemma set_found (front s rest : List Byte) (c : Byte) :
    (front ++ (s ++ c :: rest)).set (front ++ s).length 0 = front ++ (s ++ 0 :: rest) := by
  rw [← List.append_assoc, ← List.append_assoc]
  simp

end Strings

/-- What stands behind the node or the zone: a bracket with anything up to the colon, if there
is one, and the service. -/
structure Ending where
  gap : Option (List Byte)
  service : List Byte

def Ending.text (e : Ending) : List Byte :=
  (e.gap.elim [] fun gap => closeBracket :: gap) ++ colon :: e.service

/-- Where `cur` ends. Without a bracket there is none in the service either. -/
def Ending.Closes (e : Ending) (cur : List Byte) : Prop :=
  match e.gap with
  | none => colon ∉ cur ∧ closeBracket ∉ cur ∧ closeBracket ∉ e.service
  | some gap => closeBracket ∉ cur ∧ colon ∉ gap

/-- What follows the scheme of a socket. -/
inductive Host
  | plain (node : List Byte) (ending : Ending)
  | bracketed (node : List Byte) (ending : Ending)
  | zoned (node iface : List Byte) (ending : Ending)

def Host.text : Host → List Byte
  | .plain node e => node ++ e.text
  | .bracketed node e => openBracket :: (node ++ e.text)
  | .zoned node iface e => openBracket :: (node ++ percent :: (iface ++ e.text))

def Host.Good : Host → Prop
  | .plain node e => node.head? ≠ some openBracket ∧ percent ∉ node ++ e.text ∧ e.gap = none ∧
      e.Closes node
  | .bracketed node e => percent ∉ node ++ e.text ∧ e.Closes node
  | .zoned node iface e => percent ∉ node ∧ e.Closes iface

def Host.node : Host → List Byte
  | .plain node _ | .bracketed node _ | .zoned node _ _ => node

def Host.target : Host → Target
  | .plain node e | .bracketed node e =>
      .address (if node = [] then none else some node) none e.service
  | .zoned node iface e => .address (if node = [] then none else some node) (some iface) e.service

def Host.family : Host → Family
  | .plain _ _ => .inet
  | .bracketed _ _ | .zoned _ _ _ => .inet6

def Host.apply (c : Config) (h : Host) : Config :=
  { c with family := some h.family, server := c.server || h.node.isEmpty }

/-- The URLs. -/
inductive Url
  | device (path : List Byte)
  | host (s : Scheme) (h : Host)

def Url.text : Url → List Byte
  | .device path => Scheme.serial.text ++ path
  | .host s h => s.text ++ h.text

def Url.Good : Url → Prop
  | .device path => path ≠ []
  | .host s h => s ≠ .serial ∧ h.Good

def Url.target : Url → Target
  | .device path => .device path
  | .host _ h => h.target

def Url.apply (c : Config) : Url → Config
  | .device _ => Scheme.serial.apply c
  | .host s h => h.apply (s.apply c)

def Url.loop : Url → Loop
  | .device _ | .host .serial _ => .ser .slip
  | .host .udp _ => .udp
  | .host .tcp _ | .host .slipTcp _ => .tcp .slip
  | .host .prefixTcp _ => .tcp .sized

section End
variable {c : Config} {dup front cur rest service : List Byte} {node ptr : ℕ} {iface : Option ℕ}
  {e : Ending}

lemma service_subset (e : Ending) : e.service ⊆ e.text := by
  intro b hb
  exact List.mem_append_right _ (List.mem_cons_of_mem _ hb)

lemma gap_subset {gap : List Byte} (h : e.gap = some gap) : gap ⊆ e.text := by
  intro b hb
  rw [Ending.text, h]
  exact List.mem_append_left _ (List.mem_cons_of_mem _ hb)

/-- The strings as they are read when the zeros are written. -/
def ended (c : Config) (dup : List Byte) (node : ℕ) (iface : Option ℕ) (service : List Byte) :
    Config × Except Errno Target :=
  if cStr dup node = [] then
    ({ c with server := true }, .ok (.address none (iface.map (cStr dup)) service))
  else (c, .ok (.address (some (cStr dup node)) (iface.map (cStr dup)) service))

lemma reinitService_text (hdup : dup = front ++ (cur ++ colon :: (service ++ [0])))
    (hptr : ptr = front.length) (hcolon : colon ∉ cur) (hcur : (0 : Byte) ∉ cur)
    (hservice : (0 : Byte) ∉ service) : reinitService c dup node ptr iface =
      ended c (front ++ (cur ++ 0 :: (service ++ [0]))) node iface service := by
  have hsplit : front ++ (cur ++ 0 :: (service ++ [0])) =
      (front ++ cur ++ [0]) ++ (service ++ [0]) := by simp
  have hstr : cStr (front ++ (cur ++ 0 :: (service ++ [0]))) ((front ++ cur).length + 1) =
      service := cStr_at hsplit (by simp [Nat.add_assoc]) hservice
  rw [reinitService, strchr_hit hdup hptr (by decide) hcolon hcur, hdup]
  dsimp only
  rw [set_found, hstr, ended]

lemma reinitService_none (hdup : dup = front ++ (rest ++ [0])) (hptr : ptr = front.length)
    (hcolon : colon ∉ rest) (hrest : (0 : Byte) ∉ rest) :
    reinitService c dup node ptr iface = (c, .error .destAddrReq) := by
  rw [reinitService, strchr_miss hdup hptr hcolon hrest]

lemma reinitEnd_text (c : Config) (node : ℕ) (iface : Option ℕ)
    (hzero : (0 : Byte) ∉ cur ++ e.text) (hcloses : e.Closes cur)
    (hfamily : e.gap = none ∨ c.family = some .inet6) (hdup : dup = front ++ (cur ++ e.text ++ [0]))
    (hptr : ptr = front.length) : ∃ more, reinitEnd c dup node ptr iface =
      ended c (front ++ (cur ++ 0 :: more)) node iface e.service := by
  obtain ⟨gap, service⟩ := e
  rw [List.mem_append, not_or] at hzero
  obtain ⟨hcur, htext⟩ := hzero
  cases gap with
  | none =>
    obtain ⟨hcolon, hbracket, hservice⟩ := hcloses
    have hmiss : strchr dup ptr closeBracket = none := by
      refine strchr_miss hdup hptr ?_ ?_
      · simp [Ending.text, hbracket, hservice, show closeBracket ≠ colon by decide]
      · rw [List.mem_append, not_or]
        exact ⟨hcur, htext⟩
    have hzservice : (0 : Byte) ∉ service := fun h => htext (service_subset _ h)
    refine ⟨service ++ [0], ?_⟩
    rw [reinitEnd, hmiss]
    exact reinitService_text (by simp [hdup, Ending.text]) hptr hcolon hcur hzservice
  | some gap =>
    obtain ⟨hbracket, hcolon⟩ := hcloses
    have hinet6 : c.family = some .inet6 := hfamily.resolve_left (by simp)
    have hzgap : (0 : Byte) ∉ gap := fun h => htext (gap_subset rfl h)
    have hzservice : (0 : Byte) ∉ service := fun h => htext (service_subset _ h)
    have hdup' : dup = front ++ (cur ++ closeBracket :: (gap ++ colon :: (service ++ [0]))) := by
      simp [hdup, Ending.text]
    have hhit := strchr_hit hdup' hptr (by decide) hbracket hcur
    have hsplit : front ++ (cur ++ 0 :: (gap ++ colon :: (service ++ [0]))) =
        (front ++ cur ++ [0]) ++ (gap ++ colon :: (service ++ [0])) := by simp
    refine ⟨gap ++ 0 :: (service ++ [0]), ?_⟩
    rw [reinitEnd, hhit]
    dsimp only
    rw [if_neg (not_not_intro hinet6), hdup', set_found,
      reinitService_text hsplit (by simp [Nat.add_assoc]) hcolon hzgap hzservice]
    simp

/-- The rest of the URL has an ending, or there is an error whatever is around it. -/
lemma reinitEnd_cases (inet6 : Prop) (hrest : (0 : Byte) ∉ rest) :
    (∃ cur, ∃ e : Ending, rest = cur ++ e.text ∧ e.Closes cur ∧ (e.gap = none ∨ inet6)) ∨
      ∀ c dup front node ptr iface, (c.family = some .inet6 ↔ inet6) →
        dup = front ++ (rest ++ [0]) → ptr = front.length →
        reinitEnd c dup node ptr iface = (c, .error .destAddrReq) := by
  by_cases hbracket : closeBracket ∈ rest
  · obtain ⟨cur, tail, rfl, hcur⟩ := List.eq_append_cons_of_mem hbracket
    simp only [List.mem_append, List.mem_cons, not_or] at hrest
    obtain ⟨hzcur, -, hztail⟩ := hrest
    have hhit {dup front : List Byte} {ptr : ℕ}
        (hdup : dup = front ++ (cur ++ closeBracket :: tail ++ [0])) (hptr : ptr = front.length) :
        dup = front ++ (cur ++ closeBracket :: (tail ++ [0])) ∧
          strchr dup ptr closeBracket = some (front ++ cur).length := by
      rw [List.append_assoc cur, List.cons_append] at hdup
      exact ⟨hdup, strchr_hit hdup hptr (by decide) hcur hzcur⟩
    by_cases hfamily : inet6
    · by_cases hcolon : colon ∈ tail
      · obtain ⟨gap, service, rfl, hgap⟩ := List.eq_append_cons_of_mem hcolon
        exact .inl ⟨cur, ⟨some gap, service⟩, by simp [Ending.text], ⟨hcur, hgap⟩, .inr hfamily⟩
      · refine .inr fun c dup front node ptr iface hc hdup hptr => ?_
        obtain ⟨hdup, hfound⟩ := hhit hdup hptr
        have hsplit : dup.set (front ++ cur).length 0 =
            (front ++ cur ++ [0]) ++ (tail ++ [0]) := by
          rw [hdup, set_found]
          simp
        rw [reinitEnd, hfound]
        dsimp only
        rw [if_neg (not_not_intro (hc.mpr hfamily))]
        exact reinitService_none hsplit (by simp [Nat.add_assoc]) hcolon hztail
    · refine .inr fun c dup front node ptr iface hc hdup hptr => ?_
      rw [reinitEnd, (hhit hdup hptr).2]
      exact if_pos fun h => hfamily (hc.mp h)
  · have hmiss {dup front : List Byte} {ptr : ℕ} (hdup : dup = front ++ (rest ++ [0]))
        (hptr : ptr = front.length) : strchr dup ptr closeBracket = none :=
      strchr_miss hdup hptr hbracket hrest
    by_cases hcolon : colon ∈ rest
    · obtain ⟨cur, service, rfl, hcur⟩ := List.eq_append_cons_of_mem hcolon
      simp only [List.mem_append, List.mem_cons, not_or] at hbracket
      exact .inl ⟨cur, ⟨none, service⟩, by simp [Ending.text],
        ⟨hcur, hbracket.1, hbracket.2.2⟩, .inl rfl⟩
    · refine .inr fun c dup front node ptr iface _ hdup hptr => ?_
      rw [reinitEnd, hmiss hdup hptr]
      exact reinitService_none hdup hptr hcolon hrest

end End

section Address
variable {c : Config} {dup front rest text zone service : List Byte} {node ptr : ℕ}
  {iface : Option ℕ} {names : Option (List Byte)}

lemma ended_eq (hnode : cStr dup node = text) (hiface : iface.map (cStr dup) = names) :
    ended c dup node iface service =
      ({ c with server := c.server || text.isEmpty },
        .ok (.address (if text = [] then none else some text) names service)) := by
  unfold ended
  rw [hnode, hiface]
  cases text with
  | nil => simp
  | cons b text => simp

lemma getD_at (hdup : dup = front ++ (rest ++ [0])) (hptr : ptr = front.length) :
    dup.getD ptr 0 = openBracket ↔ rest.head? = some openBracket := by
  rw [hdup, hptr, List.getD_append_right _ _ _ _ le_rfl, Nat.sub_self]
  cases rest with
  | nil => simp [openBracket]
  | cons b rest => simp

/-- Without a bracket in front. -/
lemma reinitAddress_plain (hfamily : c.family = some .inet) (hhead : rest.head? ≠ some openBracket)
    (hrest : (0 : Byte) ∉ rest) (hdup : dup = front ++ (rest ++ [0])) (hptr : ptr = front.length) :
    reinitAddress c dup ptr =
      if percent ∈ rest then (c, .error .prototype) else reinitEnd c dup ptr ptr none := by
  have hbracket : ¬ dup.getD ptr 0 = openBracket := fun h => hhead ((getD_at hdup hptr).mp h)
  simp only [reinitAddress, if_neg hbracket]
  by_cases hpercent : percent ∈ rest
  · rw [if_pos hpercent]
    obtain ⟨before, tail, rfl, hnot⟩ := List.eq_append_cons_of_mem hpercent
    rw [List.append_assoc, List.cons_append] at hdup
    have hzero : (0 : Byte) ∉ before := fun h => hrest (List.mem_append_left _ h)
    rw [strchr_hit hdup hptr (by decide) hnot hzero]
    exact if_pos (by simp [hfamily])
  · rw [if_neg hpercent, strchr_miss hdup hptr hpercent hrest]

/-- With a bracket in front, and no zone. -/
lemma reinitAddress_bracketed (hpercent : percent ∉ rest) (hrest : (0 : Byte) ∉ rest)
    (hdup : dup = front ++ (openBracket :: rest ++ [0])) (hptr : ptr = front.length) :
    reinitAddress c dup ptr =
      reinitEnd { c with family := some .inet6 } dup (ptr + 1) (ptr + 1) none := by
  have hbracket : dup.getD ptr 0 = openBracket := (getD_at hdup hptr).mpr rfl
  have hsplit : dup = front ++ [openBracket] ++ (rest ++ [0]) := by simp [hdup]
  have hmiss : strchr dup (ptr + 1) percent = none :=
    strchr_miss hsplit (by simp [hptr]) hpercent hrest
  simp only [reinitAddress, if_pos hbracket, hmiss]

/-- With a zone. -/
lemma reinitAddress_zoned (hpercent : percent ∉ zone) (hzone : (0 : Byte) ∉ zone)
    (hdup : dup = front ++ (openBracket :: (zone ++ percent :: rest) ++ [0]))
    (hptr : ptr = front.length) : ∃ p, p = (front ++ openBracket :: (zone ++ [0])).length ∧
      reinitAddress c dup ptr = reinitEnd { c with family := some .inet6 }
        (front ++ openBracket :: (zone ++ [0]) ++ (rest ++ [0])) (ptr + 1) p (some p) := by
  have hbracket : dup.getD ptr 0 = openBracket := (getD_at hdup hptr).mpr rfl
  have hsplit : dup = front ++ [openBracket] ++ (zone ++ percent :: (rest ++ [0])) := by
    simp [hdup]
  have hhit := strchr_hit hsplit (show ptr + 1 = _ by simp [hptr]) (by decide) hpercent hzone
  refine ⟨_, rfl, ?_⟩
  simp only [reinitAddress, if_pos hbracket, hhit]
  rw [if_neg (by simp), hsplit, set_found]
  simp [Nat.add_assoc]

lemma reinitAddress_text {h : Host} (hgood : h.Good) (hzero : (0 : Byte) ∉ h.text)
    (hfamily : c.family = some .inet) (hdup : dup = front ++ (h.text ++ [0]))
    (hptr : ptr = front.length) : reinitAddress c dup ptr = (h.apply c, .ok h.target) := by
  cases h with
  | plain node e =>
    obtain ⟨hhead, hpercent, hgap, hcloses⟩ := hgood
    have hhead' : (node ++ e.text).head? ≠ some openBracket := by
      cases node with
      | nil => simp [Ending.text, hgap, colon, openBracket]
      | cons b node => exact hhead
    obtain ⟨more, hend⟩ := reinitEnd_text c ptr none hzero hcloses (.inl hgap) hdup hptr
    have hnode : cStr (front ++ (node ++ 0 :: more)) ptr = node :=
      cStr_at rfl hptr fun h => hzero (List.mem_append_left _ h)
    rw [reinitAddress_plain hfamily hhead' hzero hdup hptr, if_neg hpercent, hend,
      ended_eq hnode rfl]
    simp [Host.apply, Host.family, Host.node, Host.target, ← hfamily]
  | bracketed node e =>
    obtain ⟨hpercent, hcloses⟩ := hgood
    have hzero' : (0 : Byte) ∉ node ++ e.text := fun h => hzero (List.mem_cons_of_mem _ h)
    have hsplit : dup = front ++ [openBracket] ++ (node ++ e.text ++ [0]) := by
      simp [hdup, Host.text]
    have hptr' : ptr + 1 = (front ++ [openBracket]).length := by simp [hptr]
    obtain ⟨more, hend⟩ := reinitEnd_text { c with family := some .inet6 } (ptr + 1) none hzero'
      hcloses (.inr rfl) hsplit hptr'
    have hnode : cStr (front ++ [openBracket] ++ (node ++ 0 :: more)) (ptr + 1) = node :=
      cStr_at rfl hptr' fun h => hzero' (List.mem_append_left _ h)
    rw [reinitAddress_bracketed hpercent hzero' hdup hptr, hend, ended_eq hnode rfl]
    simp [Host.apply, Host.family, Host.node, Host.target]
  | zoned node name e =>
    obtain ⟨hpercent, hcloses⟩ := hgood
    have hzero' : (0 : Byte) ∉ name ++ e.text := fun h =>
      hzero (List.mem_cons_of_mem _ (List.mem_append_right _ (List.mem_cons_of_mem _ h)))
    have hzone : (0 : Byte) ∉ node := fun h =>
      hzero (List.mem_cons_of_mem _ (List.mem_append_left _ h))
    obtain ⟨p, hp, hparse⟩ := reinitAddress_zoned (c := c) hpercent hzone hdup hptr
    obtain ⟨more, hend⟩ := reinitEnd_text { c with family := some .inet6 } (ptr + 1) (some p)
      hzero' hcloses (.inr rfl) rfl hp
    have hname : cStr (front ++ openBracket :: (node ++ [0]) ++ (name ++ 0 :: more)) p = name :=
      cStr_at rfl hp fun h => hzero' (List.mem_append_left _ h)
    have hsplit : front ++ openBracket :: (node ++ [0]) ++ (name ++ 0 :: more) =
        front ++ [openBracket] ++ (node ++ 0 :: (name ++ 0 :: more)) := by simp
    have hnode : cStr (front ++ openBracket :: (node ++ [0]) ++ (name ++ 0 :: more)) (ptr + 1) =
        node := cStr_at hsplit (by simp [hptr]) hzone
    have hiface : (some p).map (cStr (front ++ openBracket :: (node ++ [0]) ++
        (name ++ 0 :: more))) = some name := congrArg some hname
    rw [hparse, hend, ended_eq hnode hiface]
    simp [Host.apply, Host.family, Host.node, Host.target]

/-- The fields where the address cannot be read. -/
def refused (c : Config) (rest : List Byte) : Config :=
  { c with family := some (if rest.head? = some openBracket then .inet6 else .inet) }

/-- What stands behind the scheme is a host, or it has a zone without a bracket, or there is
another error. -/
lemma host_cases (hrest : (0 : Byte) ∉ rest) :
    (∃ h : Host, h.Good ∧ h.text = rest) ∨
      (rest.head? ≠ some openBracket ∧ percent ∈ rest) ∨
      ∀ c dup front ptr, c.family = some .inet → dup = front ++ (rest ++ [0]) →
        ptr = front.length → reinitAddress c dup ptr = (refused c rest, .error .destAddrReq) := by
  by_cases hhead : rest.head? = some openBracket
  · obtain ⟨tail, rfl⟩ := List.head?_eq_some_iff.mp hhead
    have htail : (0 : Byte) ∉ tail := fun h => hrest (List.mem_cons_of_mem _ h)
    by_cases hpercent : percent ∈ tail
    · obtain ⟨zone, tail, rfl, hnot⟩ := List.eq_append_cons_of_mem hpercent
      have hzone : (0 : Byte) ∉ zone := fun h => htail (List.mem_append_left _ h)
      have hback : (0 : Byte) ∉ tail := fun h =>
        htail (List.mem_append_right _ (List.mem_cons_of_mem _ h))
      obtain ⟨name, e, rfl, hcloses, -⟩ | herror := reinitEnd_cases True hback
      · exact .inl ⟨.zoned zone name e, ⟨hnot, hcloses⟩, rfl⟩
      · refine .inr (.inr fun c dup front ptr _ hdup hptr => ?_)
        obtain ⟨p, hp, hparse⟩ := reinitAddress_zoned (c := c) hnot hzone hdup hptr
        rw [hparse, herror _ _ _ _ _ _ (by simp) rfl hp]
        simp [refused]
    · obtain ⟨node, e, rfl, hcloses, -⟩ | herror := reinitEnd_cases True htail
      · exact .inl ⟨.bracketed node e, ⟨hpercent, hcloses⟩, rfl⟩
      · refine .inr (.inr fun c dup front ptr _ hdup hptr => ?_)
        have hsplit : dup = front ++ [openBracket] ++ (tail ++ [0]) := by simp [hdup]
        rw [reinitAddress_bracketed hpercent htail hdup hptr,
          herror _ _ _ _ _ _ (by simp) hsplit (by simp [hptr])]
        simp [refused]
  · by_cases hpercent : percent ∈ rest
    · exact .inr (.inl ⟨hhead, hpercent⟩)
    · obtain ⟨node, e, rfl, hcloses, hgap⟩ | herror := reinitEnd_cases False hrest
      · refine .inl ⟨.plain node e, ⟨?_, hpercent, by simpa using hgap, hcloses⟩, rfl⟩
        cases node with
        | nil => simp
        | cons b node => exact hhead
      · refine .inr (.inr fun c dup front ptr hfamily hdup hptr => ?_)
        rw [reinitAddress_plain hfamily hhead hrest hdup hptr, if_neg hpercent,
          herror _ _ _ _ _ _ (by simp [hfamily]) hdup hptr]
        simp [refused, hhead, ← hfamily]

end Address

section Whole
variable {c : Config} {url rest : List Byte} {s : Scheme}

lemma zero_notMem_text (s : Scheme) : (0 : Byte) ∉ s.text := by
  cases s <;> decide

/-- No scheme is the beginning of another one. -/
lemma find_scheme (s : Scheme) (rest : List Byte) :
    schemes.find? (fun t => t.text.isPrefixOf (s.text ++ rest)) = some s := by
  cases s <;> rfl

lemma streamReinit_none (h : ∀ s : Scheme, ¬ s.text <+: url) :
    streamReinit c url = (c, .error .noProtoOpt) := by
  have hfind : schemes.find? (fun s => s.text.isPrefixOf (url ++ [0])) = none := by
    rw [List.find?_eq_none]
    intro s _ hprefix
    rw [List.isPrefixOf_iff_prefix, List.prefix_concat_iff] at hprefix
    obtain heq | hprefix := hprefix
    · exact zero_notMem_text s (heq ▸ by simp)
    · exact h s hprefix
  simp only [streamReinit, hfind]

lemma streamReinit_scheme (hrest : (0 : Byte) ∉ rest) : streamReinit c (s.text ++ rest) =
    if rest = [] then (s.apply c, .error .destAddrReq)
    else if (s.apply c).serial then (s.apply c, .ok (.device rest))
    else reinitAddress (s.apply c) (s.text ++ (rest ++ [0])) s.text.length := by
  have hstr : cStr (s.text ++ (rest ++ [0])) s.text.length = rest := cStr_at rfl rfl hrest
  have hfirst : (s.text ++ (rest ++ [0])).getD s.text.length 0 = 0 ↔ rest = [] := by
    rw [List.getD_append_right _ _ _ _ le_rfl, Nat.sub_self]
    cases rest with
    | nil => simp
    | cons b rest =>
      have hb : b ≠ 0 := fun h => hrest (h ▸ List.mem_cons_self)
      simpa using hb
  simp only [streamReinit, List.append_assoc, find_scheme, hfirst, hstr]

lemma apply_serial (hs : s ≠ .serial) : (s.apply c).serial = c.serial := by
  cases s <;> first | rfl | exact absurd rfl hs

lemma apply_family (hs : s ≠ .serial) : (s.apply c).family = some .inet := by
  cases s <;> first | rfl | exact absurd rfl hs

lemma streamReinit_host {h : Host} (hs : s ≠ .serial) (hserial : c.serial = false)
    (hgood : h.Good) (hzero : (0 : Byte) ∉ h.text) :
    streamReinit c (s.text ++ h.text) = (h.apply (s.apply c), .ok h.target) := by
  have hne : h.text ≠ [] := by
    cases h <;> simp [Host.text, Ending.text]
  rw [streamReinit_scheme hzero, if_neg hne, apply_serial hs, hserial]
  exact reinitAddress_text hgood hzero (apply_family hs) rfl rfl

lemma streamReinit_zone (hs : s ≠ .serial) (hserial : c.serial = false)
    (hzero : (0 : Byte) ∉ rest) (hhead : rest.head? ≠ some openBracket) (hpercent : percent ∈ rest) :
    streamReinit c (s.text ++ rest) = (s.apply c, .error .prototype) := by
  rw [streamReinit_scheme hzero, if_neg (List.ne_nil_of_mem hpercent), apply_serial hs, hserial,
    if_neg (by simp), reinitAddress_plain (apply_family hs) hhead hzero rfl rfl, if_pos hpercent]

lemma streamReinit_device (hrest : (0 : Byte) ∉ rest) (hne : rest ≠ []) :
    streamReinit c (Scheme.serial.text ++ rest) =
      (Scheme.serial.apply c, .ok (.device rest)) := by
  rw [streamReinit_scheme hrest, if_neg hne]
  rfl

lemma streamReinit_text {u : Url} (hgood : u.Good) (hzero : (0 : Byte) ∉ u.text)
    (hserial : c.serial = false ∨ ∃ path, u = .device path) :
    streamReinit c u.text = (u.apply c, .ok u.target) := by
  cases u with
  | device path => exact streamReinit_device (fun h => hzero (List.mem_append_right _ h)) hgood
  | host s h =>
    exact streamReinit_host hgood.1 (by simpa using hserial) hgood.2
      fun h => hzero (List.mem_append_right _ h)

/-- A node with a zone, and no bracket in front of it. -/
def Unbracketed (url : List Byte) : Prop :=
  ∃ s rest, s ≠ Scheme.serial ∧ url = s.text ++ rest ∧ rest.head? ≠ some openBracket ∧
    percent ∈ rest

/-- What the string can be. -/
lemma url_cases (hzero : (0 : Byte) ∉ url) :
    (∀ s : Scheme, ¬ s.text <+: url) ∨ (∃ u : Url, u.Good ∧ u.text = url) ∨ Unbracketed url ∨
      (∃ s : Scheme, ∀ c, streamReinit c url = (s.apply c, .error .destAddrReq)) ∨
      ∃ s rest, s ≠ Scheme.serial ∧ ∀ c : Config, c.serial = false →
        streamReinit c url = (refused (s.apply c) rest, .error .destAddrReq) := by
  by_cases hscheme : ∃ s : Scheme, s.text <+: url
  · obtain ⟨s, rest, rfl⟩ := hscheme
    have hrest : (0 : Byte) ∉ rest := fun h => hzero (List.mem_append_right _ h)
    by_cases hne : rest = []
    · exact .inr (.inr (.inr (.inl ⟨s, fun c => by rw [streamReinit_scheme hrest, if_pos hne]⟩)))
    · by_cases hs : s = .serial
      · subst hs
        exact .inr (.inl ⟨.device rest, hne, rfl⟩)
      · obtain ⟨h, hgood, rfl⟩ | ⟨hhead, hpercent⟩ | herror := host_cases hrest
        · exact .inr (.inl ⟨.host s h, ⟨hs, hgood⟩, rfl⟩)
        · exact .inr (.inr (.inl ⟨s, rest, hs, rfl, hhead, hpercent⟩))
        · refine .inr (.inr (.inr (.inr ⟨s, rest, hs, fun c hserial => ?_⟩)))
          rw [streamReinit_scheme hrest, if_neg hne, apply_serial hs, hserial]
          exact herror _ _ _ _ (apply_family hs) rfl rfl
  · exact .inl fun s hs => hscheme ⟨s, hs⟩

lemma streamReinit_unbracketed (hzero : (0 : Byte) ∉ url) (h : Unbracketed url) :
    ∃ s : Scheme, s ≠ .serial ∧ ∀ c : Config, c.serial = false →
      streamReinit c url = (s.apply c, .error .prototype) := by
  obtain ⟨s, rest, hs, rfl, hhead, hpercent⟩ := h
  exact ⟨s, hs, fun c hserial => streamReinit_zone hs hserial
    (fun h => hzero (List.mem_append_right _ h)) hhead hpercent⟩

lemma apply_apply (s : Scheme) (c : Config) : s.apply (s.apply c) = s.apply c := by
  cases s <;> rfl

/-- What the URL decides is decided again, server and serial device included. -/
lemma streamReinit_again (hzero : (0 : Byte) ∉ url) :
    streamReinit (streamReinit zeroed url).1 url = streamReinit zeroed url := by
  obtain hnone | ⟨u, hgood, rfl⟩ | hzone | ⟨s, herror⟩ | ⟨s, rest, hs, herror⟩ := url_cases hzero
  · rw [streamReinit_none hnone, streamReinit_none hnone]
  · have hfirst := streamReinit_text (c := zeroed) hgood hzero (.inl rfl)
    rw [hfirst]
    cases u with
    | device path =>
      rw [streamReinit_text hgood hzero (.inr ⟨path, rfl⟩)]
      rfl
    | host s h =>
      have hserial : (h.apply (s.apply zeroed)).serial = false := apply_serial hgood.1
      refine (streamReinit_text hgood hzero (.inl hserial)).trans ?_
      cases s <;> simp [Url.apply, Host.apply, Scheme.apply]
  · obtain ⟨s, hs, herror⟩ := streamReinit_unbracketed hzero hzone
    rw [herror zeroed rfl, herror _ (apply_serial hs), apply_apply]
  · rw [herror, herror, apply_apply]
  · have hserial : (refused (s.apply zeroed) rest).serial = false := apply_serial hs
    rw [herror zeroed rfl, herror _ hserial]
    cases s <;> rfl

lemma streamRun_apply {u : Url} (hgood : u.Good) : streamRun (u.apply zeroed) = u.loop := by
  cases u with
  | device path => rfl
  | host s h => cases s <;> rfl

end Whole

/-- A URL is taken exactly if it is one of those above, as far as the field for it reaches.
What it asks for is then its device or its host, and the loop and the framing are those of its
scheme. The error tells what is wrong with the others, and a later call, on a stream of which
the fields are already set, reads the same. -/
theorem url_law (size : ℕ) (url : List Byte) (hzero : (0 : Byte) ∉ url) :
    let text := url.take (size - 1)
    let (c, result) := streamInit size url
    (∀ target, result = .ok target ↔ ∃ u : Url, u.Good ∧ u.text = text ∧ u.target = target) ∧
    (∀ u : Url, u.Good → u.text = text → c = u.apply zeroed ∧ streamRun c = u.loop) ∧
    (result = .error .noProtoOpt ↔ ∀ s : Scheme, ¬ s.text <+: text) ∧
    (result = .error .prototype ↔ Unbracketed text) ∧
    streamReinit c text = (c, result) := by
  obtain ⟨text, htext⟩ : ∃ text, text = url.take (size - 1) := ⟨_, rfl⟩
  have hzero : (0 : Byte) ∉ text := fun h => hzero (List.mem_of_mem_take (htext ▸ h))
  obtain ⟨⟨c, result⟩, hread⟩ : ∃ read, streamReinit zeroed text = read := ⟨_, rfl⟩
  have hagain := streamReinit_again hzero
  have hgood (u : Url) (hu : u.Good) (heq : u.text = text) :
      c = u.apply zeroed ∧ result = .ok u.target :=
    Prod.mk.inj (hread.symm.trans (heq ▸ streamReinit_text hu (heq ▸ hzero) (.inl rfl)))
  have hnone (h : ∀ s : Scheme, ¬ s.text <+: text) : result = .error .noProtoOpt :=
    (Prod.mk.inj (hread.symm.trans (streamReinit_none h))).2
  have hzone (h : Unbracketed text) : result = .error .prototype := by
    obtain ⟨s, -, herror⟩ := streamReinit_unbracketed hzero h
    exact (Prod.mk.inj (hread.symm.trans (herror zeroed rfl))).2
  have hcases : (∀ s : Scheme, ¬ s.text <+: text) ∨ (∃ u : Url, u.Good ∧ u.text = text) ∨
      Unbracketed text ∨ result = .error .destAddrReq := by
    obtain h | h | h | ⟨s, herror⟩ | ⟨s, rest, -, herror⟩ := url_cases hzero
    · exact .inl h
    · exact .inr (.inl h)
    · exact .inr (.inr (.inl h))
    · exact .inr (.inr (.inr (Prod.mk.inj (hread.symm.trans (herror zeroed))).2))
    · exact .inr (.inr (.inr (Prod.mk.inj (hread.symm.trans (herror zeroed rfl))).2))
  rw [hread] at hagain
  rw [streamInit, ← htext, hread]
  refine ⟨fun target => ⟨fun hok => ?_, ?_⟩, fun u hu heq => ?_, ⟨fun herror => ?_, hnone⟩,
    ⟨fun herror => ?_, hzone⟩, hagain⟩
  · obtain h | ⟨u, hu, heq⟩ | h | h := hcases
    · simp [hnone h] at hok
    · exact ⟨u, hu, heq, Except.ok.inj ((hgood u hu heq).2.symm.trans hok)⟩
    · simp [hzone h] at hok
    · simp [h] at hok
  · rintro ⟨u, hu, heq, rfl⟩
    exact (hgood u hu heq).2
  · exact ⟨(hgood u hu heq).1, (hgood u hu heq).1 ▸ streamRun_apply hu⟩
  · obtain h | ⟨u, hu, heq⟩ | h | h := hcases
    · exact h
    · simp [(hgood u hu heq).2] at herror
    · simp [hzone h] at herror
    · simp [h] at herror
  · obtain h | ⟨u, hu, heq⟩ | h | h := hcases
    · simp [hnone h] at herror
    · simp [(hgood u hu heq).2] at herror
    · exact h
    · simp [h] at herror

/-- The zone stands behind the node, and the port behind the bracket. -/
theorem url_law_zoned : (streamInit 4096 (ascii ['o', 's', 'c', '.', 't', 'c', 'p', ':', '/', '/',
      '[', 'f', 'e', '8', '0', ':', ':', '1', '%', 'l', 'o', ']', ':', '9', '0'])).2 =
    .ok (.address (some (ascii ['f', 'e', '8', '0', ':', ':', '1'])) (some (ascii ['l', 'o']))
      (ascii ['9', '0'])) := by
  have hlaw := url_law 4096 (ascii ['o', 's', 'c', '.', 't', 'c', 'p', ':', '/', '/',
      '[', 'f', 'e', '8', '0', ':', ':', '1', '%', 'l', 'o', ']', ':', '9', '0']) (by decide)
  refine (hlaw.1 _).mpr ⟨.host .tcp (.zoned (ascii ['f', 'e', '8', '0', ':', ':', '1'])
    (ascii ['l', 'o']) ⟨some [], ascii ['9', '0']⟩), ⟨by decide, ?_⟩, by decide, by decide⟩
  exact ⟨by decide, by decide, by decide⟩

end Osc2FtdiDmx.StreamUrl
