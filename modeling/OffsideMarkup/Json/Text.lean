/-
OffsideMarkup.Json.Text — JSON as text.

`Json.toText` writes a value on one line. `Json.ofText?` reads one value with nothing but space
around it. The reader is total: each of its steps returns what is left together with the proof that
it is shorter, and the nesting of values ends by that.
-/
import OffsideMarkup.Json.Basic

namespace OffsideMarkup.Json

/-! ## 1. Writing -/

def hexDigit (n : Nat) : Char := (Nat.toDigits 16 n).headD '0'

/-- A character inside a quoted string. Only what has to be escaped is. -/
def escape (c : Char) : List Char :=
  if c = '"' then ['\\', '"']
  else if c = '\\' then ['\\', '\\']
  else if c = '\n' then ['\\', 'n']
  else if c = '\r' then ['\\', 'r']
  else if c = '\t' then ['\\', 't']
  else if c.toNat < 0x20 then
    ['\\', 'u', '0', '0', hexDigit (c.toNat / 16), hexDigit (c.toNat % 16)]
  else [c]

def quote (s : String) : String :=
  "\"" ++ String.ofList (s.toList.flatMap escape) ++ "\""

mutual
/-- A value on one line. -/
def toText : Json → String
  | .null => "null"
  | .bool true => "true"
  | .bool false => "false"
  | .num n => toString n
  | .decimal written => written
  | .str s => quote s
  | .arr items => "[" ++ itemsText items ++ "]"
  | .obj fields => "\x7b" ++ fieldsText fields ++ "\x7d"

def itemsText : List Json → String
  | [] => ""
  | [j] => j.toText
  | j :: rest => j.toText ++ "," ++ itemsText rest

def fieldsText : List (String × Json) → String
  | [] => ""
  | [(k, j)] => quote k ++ ":" ++ j.toText
  | (k, j) :: rest => quote k ++ ":" ++ j.toText ++ "," ++ fieldsText rest
end

/-! ## 2. Reading strings and numbers -/

def isSpace (c : Char) : Bool := c == ' ' || c == '\t' || c == '\n' || c == '\r'

def skipSpace (cs : List Char) : List Char := cs.dropWhile isSpace

def hexValue? (c : Char) : Option Nat :=
  if c.isDigit then some (c.toNat - '0'.toNat)
  else if 'a' ≤ c ∧ c ≤ 'f' then some (c.toNat - 'a'.toNat + 10)
  else if 'A' ≤ c ∧ c ≤ 'F' then some (c.toNat - 'A'.toNat + 10)
  else none

/-- The UTF-16 unit written by four hexadecimal digits. -/
def unit? (a b c d : Char) : Option Nat := do
  return 4096 * (← hexValue? a) + 256 * (← hexValue? b) + 16 * (← hexValue? c) + (← hexValue? d)

def isHighSurrogate (n : Nat) : Bool := 0xd800 ≤ n && n < 0xdc00

def isLowSurrogate (n : Nat) : Bool := 0xdc00 ≤ n && n < 0xe000

/-- The character behind a backslash, if it is one of the short escapes. -/
def shortEscape? (c : Char) : Option Char :=
  if c = '"' ∨ c = '\\' ∨ c = '/' then some c
  else if c = 'n' then some '\n'
  else if c = 'r' then some '\r'
  else if c = 't' then some '\t'
  else if c = 'b' then some '\x08'
  else if c = 'f' then some '\x0c'
  else none

/-- The rest of a string behind its opening quote, and what follows the closing one. -/
def stringBody : List Char → Option (List Char × List Char)
  | [] => none
  | '"' :: cs => some ([], cs)
  | '\\' :: 'u' :: a :: b :: c :: d :: '\\' :: 'u' :: e :: f :: g :: h :: cs => do
    let first ← unit? a b c d
    if isHighSurrogate first then
      let second ← unit? e f g h
      if isLowSurrogate second then
        let (text, rest) ← stringBody cs
        return (Char.ofNat (0x10000 + 1024 * (first - 0xd800) + (second - 0xdc00)) :: text, rest)
      else none
    else if isLowSurrogate first then none
    else
      let (text, rest) ← stringBody ('\\' :: 'u' :: e :: f :: g :: h :: cs)
      return (Char.ofNat first :: text, rest)
  | '\\' :: 'u' :: a :: b :: c :: d :: cs => do
    let unit ← unit? a b c d
    if isHighSurrogate unit || isLowSurrogate unit then none
    else
      let (text, rest) ← stringBody cs
      return (Char.ofNat unit :: text, rest)
  | '\\' :: c :: cs => do
    let c ← shortEscape? c
    let (text, rest) ← stringBody cs
    return (c :: text, rest)
  | c :: cs =>
    if c.toNat < 0x20 then none
    else do
      let (text, rest) ← stringBody cs
      return (c :: text, rest)

/-- Characters that a number is written with. -/
def isNumberChar (c : Char) : Bool :=
  c.isDigit || c == '-' || c == '+' || c == '.' || c == 'e' || c == 'E'

/-- The number written by some characters. -/
def numberOf? (written : List Char) : Option Json :=
  let digits := if written.head? = some '-' then written.tail else written
  if digits.head?.all (!·.isDigit) then none
  else if digits.all Char.isDigit then
    let n := digits.foldl (fun n c => 10 * n + (c.toNat - '0'.toNat)) 0
    some (.num (if written.head? = some '-' then -(Int.ofNat n) else Int.ofNat n))
  else some (.decimal (String.ofList written))

/-! ## 3. Reading values -/

/-- Something read off the front of a text, of which less is left. -/
structure Taken (α : Type) (given : List Char) where
  value : α
  rest : List Char
  shorter : rest.length < given.length

/-- Off the front of a text, if what is left is really less. -/
def take? {α : Type} (given : List Char) (value : α) (rest : List Char) : Option (Taken α given) :=
  if h : rest.length < given.length then some ⟨value, rest, h⟩ else none

theorem length_skipSpace_le (cs : List Char) : (skipSpace cs).length ≤ cs.length :=
  (List.dropWhile_suffix isSpace).length_le

/-- A fixed word. -/
def word? (word : String) (value : Json) (given : List Char) : Option (Taken Json given) :=
  if word.toList.isPrefixOf given then take? given value (given.drop word.length) else none

mutual
/-- The value at the front of a text that does not start with space. -/
def value? (given : List Char) : Option (Taken Json given) :=
  match given with
  | [] => none
  | '"' :: cs =>
    match stringBody cs with
    | none => none
    | some (text, rest) => take? ('"' :: cs) (.str (String.ofList text)) rest
  | '[' :: cs =>
    match skipSpace cs with
    | ']' :: rest => take? ('[' :: cs) (.arr []) rest
    | _ => do
      let items ← items? cs
      return ⟨.arr items.value, items.rest, Nat.lt_succ_of_lt items.shorter⟩
  | '{' :: cs =>
    match skipSpace cs with
    | '}' :: rest => take? ('{' :: cs) (.obj []) rest
    | _ => do
      let fields ← fields? cs
      return ⟨.obj (ofFields fields.value), fields.rest, Nat.lt_succ_of_lt fields.shorter⟩
  | c :: cs =>
    if c = 't' then word? "true" (.bool true) (c :: cs)
    else if c = 'f' then word? "false" (.bool false) (c :: cs)
    else if c = 'n' then word? "null" .null (c :: cs)
    else do
      let written := (c :: cs).takeWhile isNumberChar
      let number ← numberOf? written
      take? (c :: cs) number ((c :: cs).dropWhile isNumberChar)
termination_by 2 * given.length

/-- The items of an array up to its closing bracket. -/
def items? (given : List Char) : Option (Taken (List Json) given) := do
  let first ← value? (skipSpace given)
  match skipSpace first.rest with
  | ']' :: rest => take? given [first.value] rest
  | ',' :: rest => do
    if shorter : rest.length < given.length then
      let later ← items? rest
      return ⟨first.value :: later.value, later.rest, Nat.lt_trans later.shorter shorter⟩
    else none
  | _ => none
termination_by 2 * given.length + 1
decreasing_by
  · have := length_skipSpace_le given
    omega
  · omega

/-- The fields of an object up to its closing brace. -/
def fields? (given : List Char) : Option (Taken (List (String × Json)) given) := do
  match skipSpace given with
  | '"' :: cs =>
    let (name, behindName) ← stringBody cs
    match skipSpace behindName with
    | ':' :: behindColon =>
      if _inside : behindColon.length < given.length then
        let first ← value? (skipSpace behindColon)
        match skipSpace first.rest with
        | '}' :: rest => take? given [(String.ofList name, first.value)] rest
        | ',' :: rest =>
          if shorter : rest.length < given.length then
            let later ← fields? rest
            return ⟨(String.ofList name, first.value) :: later.value, later.rest,
              Nat.lt_trans later.shorter shorter⟩
          else none
        | _ => none
      else none
    | _ => none
  | _ => none
termination_by 2 * given.length + 1
decreasing_by
  · have := length_skipSpace_le behindColon
    omega
  · omega
end

/-- The value that a text consists of. -/
def ofText? (text : String) : Option Json := do
  let taken ← value? (skipSpace text.toList)
  if (skipSpace taken.rest).isEmpty then return taken.value else none

end OffsideMarkup.Json
