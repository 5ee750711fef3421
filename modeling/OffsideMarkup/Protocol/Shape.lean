/-
OffsideMarkup.Protocol.Shape — what the data of a message has to look like.

A shape says which values are acceptable and how an acceptable value is understood: `Shape.read?`
gives the value in its plain form, with unknown fields and empty optional ones left out and a record
given by position turned into one given by name. Whatever comes in is read by a shape first, so the
rest of the library meets plain values only, and an item that is passed on goes out in plain form.

Where a shape has alternatives the first that fits is taken.
-/
import OffsideMarkup.Json.Basic
import OffsideMarkup.Text.Location
import OffsideMarkup.Text.Uri

namespace OffsideMarkup

/-- What a value has to look like. -/
inductive Shape where
  | any
  | flag
  | text
  | reference
  /-- An integer between two bounds, both included. -/
  | integer (least most : Int)
  /-- One of some words. It may also be given as the only field of an object, with nothing in it. -/
  | word (words : List String)
  | list (item : Shape)
  /-- Named fields, each with whether it must be there. A positional record may also be given as
  an array of all its fields in order. -/
  | record (positional : Bool) (fields : List (String × Bool × Shape))
  | oneOf (alternatives : List Shape)
  deriving Inhabited

namespace Shape

/-! ## 1. Reading -/

def readWord? (words : List String) : Json → Option Json
  | .str s => if words.contains s then some (.str s) else none
  | .obj [(s, .null)] => if words.contains s then some (.str s) else none
  | _ => none

mutual
/-- The value in plain form, if it has the shape. -/
def read? : Shape → Json → Option Json
  | any, j => some j
  | flag, j => j.bool?.map .bool
  | text, j => j.str?.map .str
  | reference, j => (j.str?.filter fun s => Uri.isReference s.toList).map .str
  | integer least most, j => (j.int?.filter fun n => least ≤ n && n ≤ most).map .num
  | word words, j => readWord? words j
  | list item, j => j.arr?.bind fun items => (items.mapM item.read?).map .arr
  | record positional fields, j =>
    match j with
    | .obj given => (readNamed? fields given).map .obj
    | .arr given => if positional then (readPlaced? fields given).map .obj else none
    | _ => none
  | oneOf alternatives, j => readFirst? alternatives j

/-- The fields of a record, taken from an object. -/
def readNamed? : List (String × Bool × Shape) → List (String × Json) →
    Option (List (String × Json))
  | [], _ => some []
  | (name, needed, shape) :: fields, given => do
    let value := (given.lookup name).getD .null
    let others ← readNamed? fields given
    if !needed && value.isNull then return others
    else if needed && (given.lookup name).isNone then none
    else return (name, ← shape.read? value) :: others

/-- The fields of a record, taken from an array that has exactly one value for each. -/
def readPlaced? : List (String × Bool × Shape) → List Json → Option (List (String × Json))
  | [], [] => some []
  | (name, needed, shape) :: fields, value :: given => do
    let others ← readPlaced? fields given
    if !needed && value.isNull then return others
    else return (name, ← shape.read? value) :: others
  | _, _ => none

def readFirst? : List Shape → Json → Option Json
  | [], _ => none
  | shape :: others, j =>
    match shape.read? j with
    | some plain => some plain
    | none => readFirst? others j
end

/-! ## 2. Shapes that many messages use -/

/-- Integers of 32 bits with a sign. -/
def signed : Shape := .integer (-2147483648) 2147483647

/-- Integers of 32 bits without a sign. -/
def unsigned : Shape := .integer 0 4294967295

/-- What names a request, or the progress of one. -/
def token : Shape := .oneOf [signed, .text]

def position : Shape :=
  .record true [("line", true, unsigned), ("character", true, unsigned)]

def region : Shape :=
  .record true [("start", true, position), ("end", true, position)]

/-- What names a document. -/
def identifier : Shape := .record true [("uri", true, .reference)]

end Shape

/-! ## 3. Taking plain values apart -/

def Position.ofPlain? (j : Json) : Option Position := do
  return ⟨← (← j.get? "line").nat?, ← (← j.get? "character").nat?⟩

def Region.ofPlain? (j : Json) : Option Region := do
  return ⟨← Position.ofPlain? (← j.get? "start"), ← Position.ofPlain? (← j.get? "end")⟩

end OffsideMarkup
