import Mathlib

/-! Resources as tokens. What a program owns is a multiset of tokens; to release or to use
a token that is not owned is misuse. -/
namespace Osc2FtdiDmx.OwnedTokens

inductive Misuse (T : Type)
  | notOwned (t : T)
  | null
  deriving DecidableEq, Repr

/-- The token that an optional name stands for. -/
def tokens {T : Type} : Option T → Multiset T
  | none => 0
  | some t => {t}

@[simp] lemma tokens_none {T : Type} : tokens (none : Option T) = 0 := rfl

@[simp] lemma tokens_some {T : Type} (t : T) : tokens (some t) = {t} := rfl

section Ledger
variable {T : Type} [DecidableEq T] {t : T} {owned rest : Multiset T}

def release (t : T) (owned : Multiset T) : Except (Misuse T) (Multiset T) :=
  if t ∈ owned then .ok (owned.erase t) else .error (.notOwned t)

def use (t : T) (owned : Multiset T) : Except (Misuse T) Unit :=
  if t ∈ owned then .ok () else .error (.notOwned t)

/-- Nothing is released for a name that stands for no token. -/
def releaseNamed : Option T → Multiset T → Except (Misuse T) (Multiset T)
  | none, owned => .ok owned
  | some t, owned => release t owned

def useNamed : Option T → Multiset T → Except (Misuse T) Unit
  | none, _ => .ok ()
  | some t, owned => use t owned

lemma release_of_mem (h : t ∈ owned) : release t owned = .ok (owned.erase t) := if_pos h

/-- Releasing takes away one copy and leaves the rest. -/
lemma release_cons : release t (t ::ₘ rest) = .ok rest := by
  simp [release_of_mem]

lemma use_of_mem (h : t ∈ owned) : use t owned = .ok () := if_pos h

lemma releaseNamed_tokens (name : Option T) :
    releaseNamed name (tokens name + rest) = .ok rest := by
  cases name with
  | none => simp [releaseNamed]
  | some t => simpa [releaseNamed] using release_cons

lemma useNamed_tokens {name : Option T} (h : tokens name ≤ owned) :
    useNamed name owned = .ok () := by
  cases name with
  | none => rfl
  | some t => exact use_of_mem (Multiset.singleton_le.mp h)

end Ledger

section Yields
variable {ε α β : Type} {P Q : α → Prop} {x : Except ε α}

/-- The computation ends without an error, and in a result with `P`. -/
def Yields (x : Except ε α) (P : α → Prop) : Prop := ∃ a, x = .ok a ∧ P a

lemma Yields.pure {a : α} (h : P a) : Yields (pure a : Except ε α) P := ⟨a, rfl, h⟩

lemma Yields.of_eq {a : α} (hx : x = .ok a) (h : P a) : Yields x P := ⟨a, hx, h⟩

lemma Yields.bind {R : β → Prop} {f : α → Except ε β} (h : Yields x P)
    (hf : ∀ a, P a → Yields (f a) R) : Yields (x >>= f) R := by
  obtain ⟨a, rfl, ha⟩ := h
  exact hf a ha

lemma Yields.bind_eq {R : β → Prop} {f : α → Except ε β} {a : α} (hx : x = .ok a)
    (h : Yields (f a) R) : Yields (x >>= f) R := by
  rw [hx]
  exact h

/-- What every step keeps is kept by all of them. -/
lemma Yields.foldlM {f : α → β → Except ε α} {bs : List β} {a : α} (h : P a)
    (hf : ∀ a b, P a → Yields (f a b) P) : Yields (bs.foldlM f a) P := by
  induction bs generalizing a with
  | nil => exact .pure h
  | cons b bs ih =>
    rw [List.foldlM_cons]
    exact (hf a b h).bind fun a' ha' => ih ha'

end Yields

end Osc2FtdiDmx.OwnedTokens
