import Mathlib.Data.List.Basic

/-!
# Self-delimiting formats

A `Codec` writes values one after the other into a stream and reads them from it again. Its
structure carries what a reader of a stream needs: `decodeOne` finds the first value again, whatever
follows it, and it does not change its mind when more of the stream arrives. From this alone, a
sequence of values is read back from the stream (`decode_encodeAll`), and the beginning of a value
that is broken off is not taken for a whole one (`decodeOne_of_broken`, `decode_broken`).
-/

namespace TmcExamples

universe u v

/-- A format of values of `β` in streams of `α`. -/
structure Codec (α : Type u) (β : Type v) where
  encode : β → List α
  decodeOne : List α → Option (β × List α)
  decodeOne_encode : ∀ b rest, decodeOne (encode b ++ rest) = some (b, rest)
  decodeOne_append : ∀ s b rest t, decodeOne s = some (b, rest) →
    decodeOne (s ++ t) = some (b, rest ++ t)
  decodeOne_shorter : ∀ s b rest, decodeOne s = some (b, rest) → rest.length < s.length

namespace Codec

variable {α : Type u} {β : Type v} (c : Codec α β)

/-- The values at the front of a stream, and what follows them. -/
def decode (s : List α) : List β × List α :=
  match _h : c.decodeOne s with
  | none => ([], s)
  | some (b, rest) => (b :: (decode rest).1, (decode rest).2)
termination_by s.length
decreasing_by all_goals exact c.decodeOne_shorter s b rest _h

/-- The values one after the other. -/
def encodeAll (bs : List β) : List α := bs.flatMap c.encode

variable {c}

/-- A stream without a whole message is left over as it is. -/
theorem decode_of_none {s : List α} (h : c.decodeOne s = none) : c.decode s = ([], s) := by
  rw [decode]
  split
  · rfl
  · rename_i heq
    rw [h] at heq
    cases heq

/-- Decoding takes the first message off and goes on with the rest. -/
theorem decode_of_some {s rest : List α} {b : β} (h : c.decodeOne s = some (b, rest)) :
    c.decode s = (b :: (c.decode rest).1, (c.decode rest).2) := by
  rw [decode]
  split
  · rename_i heq
    rw [h] at heq
    cases heq
  · rename_i heq
    rw [h] at heq
    cases heq
    rfl

/-- Messages are sent one behind the other. -/
theorem encodeAll_append (bs bs' : List β) :
    c.encodeAll (bs ++ bs') = c.encodeAll bs ++ c.encodeAll bs' :=
  List.flatMap_append

@[simp] theorem encodeAll_singleton (b : β) : c.encodeAll [b] = c.encode b :=
  List.flatMap_singleton _ _

/-- Values in front of a stream are read, and the rest of the stream is as it was. -/
theorem decode_encodeAll_append (bs : List β) {s : List α} (h : c.decodeOne s = none) :
    c.decode (c.encodeAll bs ++ s) = (bs, s) := by
  induction bs with
  | nil => exact decode_of_none h
  | cons b bs ih =>
    rw [encodeAll, List.flatMap_cons, List.append_assoc,
      decode_of_some (c.decodeOne_encode b _)]
    change (b :: (c.decode (c.encodeAll bs ++ s)).1, (c.decode (c.encodeAll bs ++ s)).2) = _
    rw [ih]

/-- `s` is the beginning of a value, broken off before its end. -/
def Broken (c : Codec α β) (b : β) (s : List α) : Prop := ∃ t, t ≠ [] ∧ s ++ t = c.encode b

/-- The beginning of a message is no message. -/
theorem decodeOne_of_broken {b : β} {s : List α} (h : c.Broken b s) : c.decodeOne s = none := by
  obtain ⟨t, ht, heq⟩ := h
  by_contra hne
  obtain ⟨⟨b', rest⟩, hs⟩ := Option.ne_none_iff_exists'.mp hne
  have hwhole := c.decodeOne_append s b' rest t hs
  have hencode := c.decodeOne_encode b []
  rw [List.append_nil, ← heq, hwhole] at hencode
  obtain ⟨-, hrest⟩ := Prod.mk.inj (Option.some.inj hencode)
  exact ht (List.append_eq_nil_iff.mp hrest).2

/-- **Round trip.** A stream of values is read back, also when a last value is broken off. -/
theorem decode_broken (bs : List β) {b : β} {s : List α} (h : c.Broken b s) :
    c.decode (c.encodeAll bs ++ s) = (bs, s) :=
  decode_encodeAll_append bs (decodeOne_of_broken h)

end Codec

end TmcExamples
