import InkFuse.Codegen.Type
import InkFuse.Float.Binary64
import Mathlib.Data.Nat.Notation

/-!
Values of the intermediate representation and the text with which they are written to generated
code.
-/

namespace InkFuse.Codegen

open InkFuse.Float

/-- The sizes that `UI` and `SI` allow. -/
inductive IntSize
  | one
  | two
  | four
  | eight
  deriving DecidableEq, Repr

def IntSize.bytes : IntSize → ℕ
  | one => 1
  | two => 2
  | four => 4
  | eight => 8

inductive Value
  | UI (size : IntSize) (value : UInt64)
  | SI (size : IntSize) (value : Int64)
  | F8 (value : Binary64)
  | DateVal (value : Int32)
  | StringVal (value : List Char)
  | StringList (strings : List (List Char))

/-- `std::to_string` of an integer. -/
def stdToString (value : ℤ) : List Char :=
  match value with
  | .ofNat n => Nat.toDigits 10 n
  | .negSucc n => '-' :: Nat.toDigits 10 (n + 1)

/-- `std::to_string` of a `double`: six digits behind the point. -/
def stdToFixed (value : ℚ) : List Char :=
  let scaled := (roundHalfEven (|value| * 10 ^ 6)).toNat
  let sign := if value < 0 then ['-'] else []
  sign ++ Nat.toDigits 10 (scaled / 10 ^ 6) ++
    '.' :: (Nat.toDigits 10 (scaled % 10 ^ 6)).leftpad 6 '0'

namespace Value

def getType : Value → IRType
  | UI size _ => .unsignedInt size.bytes
  | SI size _ => .signedInt size.bytes
  | F8 _ => .float 8
  | DateVal _ => .date
  | StringVal _ => .string
  | StringList _ => .pointer .char

def supportsInlining : Value → Bool
  | StringList _ => false
  | _ => true

/-- Not implemented for lists of strings. -/
def str : Value → Option (List Char)
  | UI _ value => some (stdToString value.toNat)
  | SI _ value => some (stdToString value.toInt)
  | F8 value => some (stdToFixed value.value)
  | DateVal value => some (stdToString value.toInt)
  | StringVal value => some ('"' :: value ++ ['"'])
  | StringList _ => none

end Value

end InkFuse.Codegen
