import InkFuse.Codegen.Value
import InkFuse.Storage.Text

/-!
Stored relations and the loading of a row. Every column takes its value at a pointer into the line.
-/

namespace InkFuse.Storage

open Bytes Codegen

/-- The functions that a column can load its values with. -/
inductive LoadVal
  | loadDate
  | loadInt (size : IntSize)
  | loadUint (size : IntSize)
  | loadFloat
  | loadDouble
  | loadChar
  deriving DecidableEq, Repr

namespace LoadVal

def width : LoadVal → ℕ
  | loadDate => 4
  | loadInt size => size.bytes
  | loadUint size => size.bytes
  | loadFloat => 4
  | loadDouble => 8
  | loadChar => 1

def twosComplement (width : ℕ) (x : ℤ) : Bytes := encode width (x % 256 ^ width).toNat

/-- What is written for the text at a pointer; `none` if the conversion throws. -/
def run (float : FloatConversions) (memory : Bytes) : LoadVal → Option Bytes
  | loadDate => some (twosComplement 4 (dateStrToInt (cString memory)))
  | loadInt size => (stoll (cString memory)).map (twosComplement size.bytes)
  | loadUint size => (stoull (cString memory)).map (twosComplement size.bytes)
  | loadFloat => (float.stof (floatText (cString memory))).map fun x => encode 4 x.toNat
  | loadDouble => (float.stod (floatText (cString memory))).map fun x => encode 8 x.toNat
  | loadChar => memory.head?.map fun b => [b]

end LoadVal

/-- The loading function of a type; `none` where the constructor of the column throws. -/
def resolve : IRType → Option LoadVal
  | .date => some .loadDate
  | .signedInt 1 => some (.loadInt .one)
  | .signedInt 2 => some (.loadInt .two)
  | .signedInt 4 => some (.loadInt .four)
  | .signedInt 8 => some (.loadInt .eight)
  | .unsignedInt 1 => some (.loadUint .one)
  | .unsignedInt 2 => some (.loadUint .two)
  | .unsignedInt 4 => some (.loadUint .four)
  | .unsignedInt 8 => some (.loadUint .eight)
  | .float 4 => some .loadFloat
  | .float 8 => some .loadDouble
  | .char => some .loadChar
  | _ => none

structure PODColumn where
  type : IRType
  loadVal : LoadVal
  resolved : resolve type = some loadVal
  storage : Bytes
  storageOffset : ℕ

inductive Column
  | pod (column : PODColumn)
  | string (offsets : List Bytes)

/-- How a call ends. The last case is a failed assertion, or an access outside of the line or of a
memory region. -/
inductive Status
  | done
  | threw
  | undefined
  deriving DecidableEq, Repr

namespace PODColumn

def length (c : PODColumn) : ℕ := c.storage.length / c.type.numBytes

/-- Make room for one value behind the offset. `resize` fills with zeros. -/
def resize (c : PODColumn) : PODColumn :=
  { c with
    storage :=
      (c.storage ++ List.replicate c.type.numBytes 0).take (c.storageOffset + c.type.numBytes) }

/-- `memory` is what the pointer points to, if it points into the line. -/
def loadValue (float : FloatConversions) (c : PODColumn) (memory : Option Bytes) :
    Status × PODColumn :=
  match memory with
  | none => (.undefined, c.resize)
  | some memory =>
    match c.loadVal.run float memory with
    | none => (.threw, c.resize)
    | some bytes => (.done, { c with
        storage := writeAt c.resize.storage c.storageOffset bytes
        storageOffset := c.storageOffset + c.type.numBytes })

end PODColumn

/-- The size of a memory region, which no allocation may reach. -/
def REGION_SIZE : ℕ := 8 * 512

namespace Column

def length : Column → ℕ
  | pod c => c.length
  | string offsets => offsets.length

/-- The length of the text is an unsigned 32 bit number, also after the zero byte was added. -/
def loadValue (float : FloatConversions) (memory : Option Bytes) (strLen : ℕ) :
    Column → Status × Column
  | pod c => ((c.loadValue float memory).1, pod (c.loadValue float memory).2)
  | string offsets =>
    let size := (strLen + 1) % 2 ^ 32
    match memory with
    | none => (.undefined, string offsets)
    | some memory =>
      if size < REGION_SIZE ∧ strLen < size then
        (.done, string (offsets ++ [memory.take strLen]))
      else (.undefined, string offsets)

end Column

section LoadRow

/-- What a pointer to a position of the line points to: the rest of the line and a zero byte. -/
def pointer (str : Bytes) (currPos : ℕ) : Option Bytes :=
  if currPos ≤ str.length then some (str.drop currPos ++ [0]) else none

/-- `str.find('|', currPos)`, and the length of the line if there is none. -/
def findEnd (str : Bytes) (currPos : ℕ) : ℕ :=
  if currPos ≤ str.length then currPos + (str.drop currPos).idxOf separator else str.length

def loadColumns (float : FloatConversions) (str : Bytes) (currPos : ℕ) :
    List Column → Status × List Column
  | [] => (.done, [])
  | c :: columns =>
    if currPos = str.length then (.threw, c :: columns)
    else
      let stop := findEnd str currPos
      let strLen := (stop + 2 ^ 64 - currPos) % 2 ^ 64 % 2 ^ 32
      match c.loadValue float (pointer str currPos) strLen with
      | (.done, c) =>
        let (status, columns) := loadColumns float str (stop + 1) columns
        (status, c :: columns)
      | (status, c) => (status, c :: columns)

/-- A row that is too long is accepted (`THROW_ON_MISMATCH` is off). -/
def loadRow (float : FloatConversions) (relation : List Column) (str : Bytes) :
    Status × List Column :=
  loadColumns float str 0 relation

end LoadRow

section Reachable

/-- A column as it is attached: of a type that can be loaded, and empty. -/
inductive Column.Attached : Column → Prop
  | pod (type : IRType) (loadVal : LoadVal) (h : resolve type = some loadVal) :
    Attached (.pod ⟨type, loadVal, h, [], 0⟩)
  | string : Attached (.string [])

/-- The relations that the calls of a client lead to. An exception may be caught. -/
inductive Reachable (float : FloatConversions) : List Column → Prop
  | empty : Reachable float []
  | attach (relation : List Column) (c : Column) (h : Reachable float relation)
    (hc : c.Attached) : Reachable float (relation ++ [c])
  | loadRow (relation : List Column) (str : Bytes) (h : Reachable float relation)
    (hdefined : (loadRow float relation str).1 ≠ .undefined) :
    Reachable float (Storage.loadRow float relation str).2

end Reachable

end InkFuse.Storage
