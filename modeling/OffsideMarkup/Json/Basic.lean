/-
OffsideMarkup.Json.Basic — the values that messages are made of.

Numbers in the messages of this library are integers. A number with a fraction or an exponent can
still arrive inside data that is only passed on; it is kept as it was written, in `decimal`.

The fields of an object keep their order and are found by name. A name that occurs twice counts
with its last value, which is what `ofFields` sees to.
-/

namespace OffsideMarkup

/-- A JSON value. -/
inductive Json where
  | null
  | bool (b : Bool)
  | num (n : Int)
  | decimal (written : String)
  | str (s : String)
  | arr (items : List Json)
  | obj (fields : List (String × Json))
  deriving Inhabited, Repr

namespace Json

/-! ## 1. Making values -/

def nat (n : Nat) : Json := .num (Int.ofNat n)

/-- An object in which the last value of a name counts. -/
def ofFields : List (String × Json) → List (String × Json)
  | [] => []
  | (k, v) :: rest =>
    let later := ofFields rest
    if later.any (·.1 == k) then later else (k, v) :: later

/-- A field that is left out when there is nothing to say. -/
def field? (name : String) : Option Json → List (String × Json)
  | none => []
  | some v => [(name, v)]

/-- A value, or null where there is none. -/
def orNull (v : Option Json) : Json := v.getD .null

/-! ## 2. Looking into values -/

/-- The field of an object with a name. -/
def get? (j : Json) (name : String) : Option Json :=
  match j with
  | .obj fields => fields.lookup name
  | _ => none

def str? : Json → Option String
  | .str s => some s
  | _ => none

def bool? : Json → Option Bool
  | .bool b => some b
  | _ => none

def int? : Json → Option Int
  | .num n => some n
  | _ => none

/-- A number that is not negative. -/
def nat? : Json → Option Nat
  | .num (.ofNat n) => some n
  | _ => none

def arr? : Json → Option (List Json)
  | .arr items => some items
  | _ => none

def isNull : Json → Bool
  | .null => true
  | _ => false

end Json

end OffsideMarkup
