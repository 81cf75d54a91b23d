import Osc2FtdiDmx.OscMemory

/-! Stores into memory. A run of cells is laid over the memory from an address on; an
empty cell leaves the byte under it as it was. -/
namespace Osc2FtdiDmx.MemoryStores
open BytesEndian OscMemory

abbrev Cells := List (Option Byte)

/-- How far an address lies behind another one. -/
def offset (a p : Addr) : ℕ := (p - a).toNat

/-- The memory with the cells laid over it from `a` on. -/
def put (m : Memory) (a : Addr) (cs : Cells) : Memory := fun p =>
  (cs[offset a p]?.join).or (m p)

/-- `memcpy` of known bytes. -/
def stores (m : Memory) (p : Addr) : List Byte → Except Fault Memory
  | [] => .ok m
  | b :: bs => do
      let _ ← load m p
      stores (Function.update m p (some b)) (p + 1) bs

/-- The first `n` addresses from `a` on are mapped. -/
def Mapped (m : Memory) (a : Addr) (n : ℕ) : Prop := ∀ i < n, (m (a + BitVec.ofNat 64 i)).isSome

variable {m : Memory} {a p : Addr} {n : ℕ} {cs xs ys : Cells}

lemma offset_self (a : Addr) : offset a a = 0 := by
  simp [offset]

lemma offset_add {i : ℕ} (hi : i < 2 ^ 64) : offset a (a + BitVec.ofNat 64 i) = i := by
  unfold offset
  bv_omega

lemma offset_behind (h : n ≤ offset a p) : offset (a + BitVec.ofNat 64 n) p = offset a p - n := by
  unfold offset at *
  bv_omega

lemma offset_before (hn : n ≤ 2 ^ 64) (h : offset a p < n) :
    offset (a + BitVec.ofNat 64 n) p = 2 ^ 64 - n + offset a p := by
  unfold offset at *
  bv_omega

@[simp] lemma put_nil (m : Memory) (a : Addr) : put m a [] = m := by
  funext p
  simp [put]

lemma put_of_ge (h : cs.length ≤ offset a p) : put m a cs p = m p := by
  simp [put, List.getElem?_eq_none h]

lemma put_at {i : ℕ} (hi : i < 2 ^ 64) :
    put m a cs (a + BitVec.ofNat 64 i) = (cs[i]?.join).or (m (a + BitVec.ofNat 64 i)) := by
  rw [put, offset_add hi]

/-- Cells laid behind cells. -/
lemma put_append (m : Memory) (a : Addr) (xs ys : Cells) (h : xs.length + ys.length ≤ 2 ^ 64) :
    put (put m a xs) (a + BitVec.ofNat 64 xs.length) ys = put m a (xs ++ ys) := by
  funext p
  by_cases hp : xs.length ≤ offset a p
  · simp [put, offset_behind hp, List.getElem?_append_right hp, List.getElem?_eq_none hp]
  · have hfar := offset_before (a := a) (p := p) (n := xs.length) (by omega) (by omega)
    rw [put_of_ge (by omega)]
    simp [put, List.getElem?_append_left (show offset a p < xs.length by omega)]

/-- Full cells laid over some of those that lie there already. -/
lemma put_over (m : Memory) (a : Addr) (xs old : Cells) (bs : List Byte) (ys : Cells)
    (hold : old.length = bs.length) (h : xs.length + bs.length + ys.length ≤ 2 ^ 64) :
    put (put m a (xs ++ (old ++ ys))) (a + BitVec.ofNat 64 xs.length) (bs.map some) =
      put m a (xs ++ (bs.map some ++ ys)) := by
  funext p
  by_cases hp : xs.length ≤ offset a p
  · simp only [put, offset_behind hp, List.getElem?_append_right hp]
    by_cases hb : offset a p - xs.length < (bs.map some).length
    · rw [List.getElem?_append_left hb, List.getElem?_map, List.getElem?_eq_getElem (by simpa using hb)]
      rfl
    · rw [List.getElem?_append_right (not_lt.mp hb), List.getElem?_eq_none (not_lt.mp hb),
        List.getElem?_append_right (by rw [hold]; simpa using hb), hold, List.length_map]
      rfl
  · have hfar := offset_before (a := a) (p := p) (n := xs.length) (by omega) (by omega)
    rw [put_of_ge (by rw [List.length_map]; omega)]
    simp [put, List.getElem?_append_left (show offset a p < xs.length by omega)]

lemma put_none (m : Memory) (a : Addr) (k : ℕ) : put m a (List.replicate k none) = m := by
  funext p
  by_cases hp : offset a p < k
  · simp [put, hp]
  · exact put_of_ge (by simpa using hp)

/-- Empty cells behind the last full one do nothing. -/
lemma put_append_none (m : Memory) (a : Addr) {k : ℕ} (h : xs.length + k ≤ 2 ^ 64) :
    put m a (xs ++ List.replicate k none) = put m a xs := by
  rw [← put_append m a xs _ (by simpa using h), put_none]

/-- A blank last word under bytes that reach into it. -/
lemma put_blank {bs : List Byte} {k : ℕ} (h4 : 4 ≤ k) (hbs : bs.length ≤ k) (hk : k ≤ bs.length + 4)
    (h : k ≤ 2 ^ 64) :
    put (put m a (List.replicate (k - 4) none ++ [0, 0, 0, 0].map some)) a (bs.map some) =
      put m a ((bs ++ List.replicate (k - bs.length) 0).map some) := by
  have hzeros : [0, 0, 0, 0].map some = List.replicate 4 (some (0 : Byte)) := rfl
  have hsplit : List.replicate (k - 4) none ++ [0, 0, 0, 0].map some =
      (List.replicate (k - 4) none ++ List.replicate (4 - (k - bs.length)) (some (0 : Byte))) ++
        List.replicate (k - bs.length) (some 0) := by
    rw [hzeros, List.append_assoc, ← List.replicate_add]
    congr 2
    omega
  have hold : (List.replicate (k - 4) none ++
      List.replicate (4 - (k - bs.length)) (some (0 : Byte))).length = bs.length := by
    simp
    omega
  have hover := put_over m a [] _ bs (List.replicate (k - bs.length) (some 0)) hold (by simp; omega)
  rw [hsplit, List.map_append, List.map_replicate]
  simpa using hover

lemma mapped_put (a : Addr) (cs : Cells) (h : Mapped m p n) : Mapped (put m a cs) p n := by
  intro i hi
  rw [put, Option.isSome_or, h i hi, Bool.or_true]

lemma stores_put {bs : List Byte} (hmap : Mapped m a bs.length) (hlen : bs.length ≤ 2 ^ 64) :
    stores m a bs = .ok (put m a (bs.map some)) := by
  induction bs generalizing m a with
  | nil => simp [stores]
  | cons b bs ih =>
    rw [List.length_cons] at hmap hlen
    obtain ⟨old, hold⟩ := Option.isSome_iff_exists.mp (hmap 0 (by omega))
    have hload : load m a = .ok old := by
      rw [BitVec.add_zero] at hold
      rw [load, hold]
    have hone : Function.update m a (some b) = put m a [some b] := by
      funext p
      by_cases hp : p = a
      · rw [hp, Function.update_self, put, offset_self]
        rfl
      · have hpos : 1 ≤ offset a p := by
          unfold offset
          bv_omega
        rw [Function.update_of_ne hp, put_of_ge (by simpa using hpos)]
    have hnext : Mapped (put m a [some b]) (a + 1) bs.length := by
      intro i hi
      have hmapped := mapped_put a [some b] hmap (i + 1) (by omega)
      rwa [← add_ofNat_succ] at hmapped
    rw [stores, hload, ok_bind, hone, ih hnext (by omega), List.map_cons]
    congr 1
    exact put_append m a [some b] (bs.map some) (by simp; omega)

/-- What the memory holds where the cells were laid. -/
def filled (m : Memory) : Addr → Cells → List Byte
  | _, [] => []
  | a, c :: cs => c.getD ((m a).getD 0) :: filled m (a + 1) cs

@[simp] lemma filled_length (m : Memory) (a : Addr) (cs : Cells) :
    (filled m a cs).length = cs.length := by
  induction cs generalizing a with
  | nil => rfl
  | cons c cs ih => simp [filled, ih]

lemma filled_append (m : Memory) (a : Addr) (xs ys : Cells) :
    filled m a (xs ++ ys) = filled m a xs ++ filled m (a + BitVec.ofNat 64 xs.length) ys := by
  induction xs generalizing a with
  | nil => simp [filled]
  | cons x xs ih =>
    rw [List.cons_append, filled, filled, ih, add_ofNat_succ, List.length_cons, List.cons_append]

lemma filled_full (m : Memory) (a : Addr) (bs : List Byte) : filled m a (bs.map some) = bs := by
  induction bs generalizing a with
  | nil => rfl
  | cons b bs ih => simp [filled, ih]

lemma filled_congr {m' : Memory}
    (h : ∀ i < cs.length, m (a + BitVec.ofNat 64 i) = m' (a + BitVec.ofNat 64 i)) :
    filled m a cs = filled m' a cs := by
  induction cs generalizing a with
  | nil => rfl
  | cons c cs ih =>
    have hhead := h 0 (by simp)
    rw [BitVec.add_zero] at hhead
    rw [filled, filled, hhead, ih fun i hi => ?_]
    rw [add_ofNat_succ]
    exact h (i + 1) (by simpa using hi)

lemma put_cons {c : Option Byte} (h : cs.length < 2 ^ 64) :
    put m a (c :: cs) = put (put m a [c]) (a + 1) cs :=
  (put_append m a [c] cs (by simp; omega)).symm

lemma holds_put (hmap : Mapped m a cs.length) (hlen : cs.length ≤ 2 ^ 64) :
    Holds (put m a cs) a (filled m a cs) := by
  induction cs generalizing m a with
  | nil => trivial
  | cons c cs ih =>
    rw [List.length_cons] at hmap hlen
    have hnext : Mapped (put m a [c]) (a + 1) cs.length := by
      intro i hi
      have hmapped := mapped_put a [c] hmap (i + 1) (by omega)
      rwa [← add_ofNat_succ] at hmapped
    have hsame : filled m (a + 1) cs = filled (put m a [c]) (a + 1) cs := by
      refine filled_congr fun i hi => (put_of_ge ?_).symm
      rw [add_ofNat_succ, offset_add (by omega)]
      simp
    obtain ⟨old, hold⟩ := Option.isSome_iff_exists.mp (hmap 0 (by omega))
    rw [BitVec.add_zero] at hold
    rw [filled]
    constructor
    · rw [put, offset_self, hold]
      cases c <;> rfl
    · rw [put_cons (by omega), hsame]
      exact ih hnext (by omega)

/-- Cells beside some bytes leave them as they are. -/
lemma holds_apart {bs : List Byte} (h : Holds m p bs)
    (hfar : ∀ i < bs.length, cs.length ≤ offset a (p + BitVec.ofNat 64 i)) :
    Holds (put m a cs) p bs := by
  induction bs generalizing p with
  | nil => trivial
  | cons b bs ih =>
    have hhead := hfar 0 (by simp)
    rw [BitVec.add_zero] at hhead
    constructor
    · rw [put_of_ge hhead]
      exact h.1
    · apply ih h.2
      intro i hi
      rw [add_ofNat_succ]
      exact hfar (i + 1) (by simpa using hi)

/-- What cells hold where zeros lie under the empty ones. -/
def blank (cs : Cells) : List Byte := cs.map (·.getD 0)

@[simp] lemma blank_length (cs : Cells) : (blank cs).length = cs.length := by
  simp [blank]

@[simp] lemma blank_append (xs ys : Cells) : blank (xs ++ ys) = blank xs ++ blank ys := by
  simp [blank]

@[simp] lemma blank_full (bs : List Byte) : blank (bs.map some) = bs := by
  simp [blank, Function.comp_def]

@[simp] lemma blank_none (k : ℕ) : blank (List.replicate k none) = List.replicate k 0 := by
  simp [blank]

lemma holds_iff_get {bs : List Byte} :
    Holds m a bs ↔ ∀ i < bs.length, m (a + BitVec.ofNat 64 i) = bs[i]? := by
  induction bs generalizing a with
  | nil => simp [Holds]
  | cons b bs ih =>
    rw [Holds, ih]
    constructor
    · rintro ⟨hhead, hrest⟩ (_ | i) hi
      · rwa [BitVec.add_zero]
      · rw [← add_ofNat_succ, List.getElem?_cons_succ]
        exact hrest i (by simpa using hi)
    · intro h
      have hhead := h 0 (by simp)
      rw [BitVec.add_zero] at hhead
      refine ⟨hhead, fun i hi => ?_⟩
      rw [add_ofNat_succ, h (i + 1) (by simpa using hi), List.getElem?_cons_succ]

/-- The cells are all that is held exactly where zeros lie under the empty ones. -/
lemma holds_blank (hlen : cs.length ≤ 2 ^ 64) :
    Holds (put m a cs) a (blank cs) ↔ ∀ i, cs[i]? = some none → m (a + BitVec.ofNat 64 i) = some 0 := by
  rw [holds_iff_get, blank_length]
  have hcell {i : ℕ} (hi : i < cs.length) : put m a cs (a + BitVec.ofNat 64 i) = (blank cs)[i]? ↔
      (cs[i]? = some none → m (a + BitVec.ofNat 64 i) = some 0) := by
    rw [put_at (by omega), blank, List.getElem?_map, List.getElem?_eq_getElem hi]
    cases cs[i] <;> simp
  constructor
  · intro h i hi
    have hlt := (List.getElem?_eq_some_iff.mp hi).1
    exact (hcell hlt).mp (h i hlt) hi
  · exact fun h i hi => (hcell hi).mpr (h i)

end Osc2FtdiDmx.MemoryStores
