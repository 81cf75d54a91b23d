import Mathlib

/-! Streams of frames. What is sent is a list of packets, what is on the wire are their
encodings, one behind the other. -/
namespace Osc2FtdiDmx.FramedStreams

variable {α β : Type} (encode : β → List α)

def encodings (packets : List β) : List α := packets.flatMap encode

@[simp] lemma encodings_nil : encodings encode [] = [] := rfl

@[simp] lemma encodings_cons (packet : β) (packets : List β) :
    encodings encode (packet :: packets) = encode packet ++ encodings encode packets :=
  List.flatMap_cons

@[simp] lemma encodings_append (front back : List β) :
    encodings encode (front ++ back) = encodings encode front ++ encodings encode back :=
  List.flatMap_append

variable {encode}

/-- The bytes behind the packets at the front are those of the packets that wait. -/
lemma encodings_waiting {front waiting sent : List β} {rest : List α}
    (hwaiting : front ++ waiting = sent) :
    encodings encode front ++ rest = encodings encode sent ↔ rest = encodings encode waiting := by
  rw [← hwaiting, encodings_append, List.append_cancel_left_eq]

lemma encodings_eq_nil (hencode : ∀ packet, encode packet ≠ []) {packets : List β}
    (h : encodings encode packets = []) : packets = [] := by
  cases packets with
  | nil => rfl
  | cons packet packets =>
    rw [encodings_cons, List.append_eq_nil_iff] at h
    exact absurd h.1 (hencode packet)

end Osc2FtdiDmx.FramedStreams
