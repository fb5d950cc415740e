import Mathlib.Logic.Encodable.Basic
import Mizu.Library.BigEndian

/-!
# Serialised messages

A message type with a serialiser whose output the parser reads back, for messages that are
`Valid`: those whose numbers fit the fields of the wire format.
-/

structure Codec (α : Type*) (Valid : α → Prop) where
  marshal : α → List UInt8
  unmarshal : List UInt8 → Option α
  unmarshal_marshal : ∀ a, Valid a → unmarshal (marshal a) = some a

namespace Codec

variable {α : Type*} {Valid : α → Prop}

theorem marshal_inj (c : Codec α Valid) {a b : α} (ha : Valid a) (hb : Valid b) :
    c.marshal a = c.marshal b ↔ a = b := by
  constructor
  · intro h
    rw [← Option.some_inj, ← c.unmarshal_marshal a ha, ← c.unmarshal_marshal b hb, h]
  · rintro rfl
    rfl

instance : Encodable UInt8 :=
  Encodable.ofLeftInjection UInt8.toNat (fun n => some (UInt8.ofNat n)) fun b => by simp

/-- A message as the number of its bytes; the default message has none. -/
def unary [Encodable α] [DecidableEq α] (default : α) : Codec α Valid where
  marshal a := if a = default then [] else List.replicate (Encodable.encode a + 1) 0
  unmarshal bytes := if bytes = [] then some default else Encodable.decode (bytes.length - 1)
  unmarshal_marshal a _ := by
    by_cases h : a = default
    · simp [h]
    · simp [h, List.replicate_succ]

@[simp] theorem marshal_unary [Encodable α] [DecidableEq α] (default : α) :
    (unary default : Codec α Valid).marshal default = [] := if_pos rfl

end Codec
