import Mathlib.Data.Nat.Notation

/-!
The types of the intermediate representation, without the structs that hold operator state.
-/

namespace InkFuse.Codegen

inductive IRType
  | signedInt (size : ℕ)
  | unsignedInt (size : ℕ)
  | float (size : ℕ)
  | bool
  | char
  | string
  | date
  | void
  | byteArray (size : ℕ)
  | pointer (pointedTo : IRType)
  deriving DecidableEq, Repr

namespace IRType

/-- How much memory a value takes. A string is a pointer to its characters. -/
def numBytes : IRType → ℕ
  | signedInt size => size
  | unsignedInt size => size
  | float size => size
  | bool => 1
  | char => 1
  | string => 8
  | date => 4
  | void => 0
  | byteArray size => size
  | pointer _ => 8

end IRType

end InkFuse.Codegen
