import Mathlib.Data.List.Basic
import Mathlib.Logic.Function.Basic

/-! Enumerations that travel as one byte. A received byte need not be the code of any
enumerator, so a value read from the wire is an enumerator or an unnamed byte. -/

/-- An enumeration with a one-byte code for each of its enumerators. -/
class ByteEnum (α : Type) where
  values : List α
  code : α → UInt8
  mem_values : ∀ a, a ∈ values
  code_injective : Function.Injective code

namespace ByteEnum

/-- What a cast of a byte to the enumeration holds. -/
inductive Value (α : Type) [ByteEnum α]
  | named (a : α)
  | unnamed (b : UInt8) (h : ∀ a : α, code a ≠ b)
  deriving DecidableEq

namespace Value
variable {α : Type} [ByteEnum α]

instance : Coe α (Value α) := ⟨named⟩

def toByte : Value α → UInt8
  | named a => code a
  | unnamed b _ => b

def ofByte (b : UInt8) : Value α :=
  match h : (values : List α).find? (fun a => code a == b) with
  | some a => named a
  | none => unnamed b (fun a ha => by
      have := List.find?_eq_none.mp h a (mem_values a)
      simp [ha] at this)

@[simp] theorem toByte_named (a : α) : (named a).toByte = code a := rfl

/-- The cast keeps the byte. -/
@[simp] theorem toByte_ofByte (b : UInt8) : (ofByte b : Value α).toByte = b := by
  unfold ofByte
  split
  · next a h =>
    have := List.find?_some h
    simpa using this
  · rfl

theorem toByte_injective : Function.Injective (toByte : Value α → UInt8) := by
  intro v w h
  cases v with
  | named a =>
    cases w with
    | named a' => rw [code_injective h]
    | unnamed b hb => exact absurd h (hb a)
  | unnamed b hb =>
    cases w with
    | named a' => exact absurd h.symm (hb a')
    | unnamed b' hb' =>
      obtain rfl : b = b' := h
      rfl

/-- Writing a value and reading its byte back. -/
@[simp] theorem ofByte_toByte (v : Value α) : ofByte v.toByte = v :=
  toByte_injective (toByte_ofByte _)

end Value
end ByteEnum
