/-
OffsideMarkup.Text.Uri — which texts are URI references.

A reference is cut at its first `#`, what stands before that at its first `?`, and what stands
before that at the colon of its first segment. None of these characters can occur earlier in a
part that allows it, so the cuts find the parts of the grammar, and each part is then a matter of
the characters it may hold. A percent sign stands in any part for a byte in two hexadecimal digits.

Only ASCII occurs in a reference; the classes below are the ASCII ones.
-/

namespace OffsideMarkup.Uri

/-! ## 1. Characters -/

/-- Letters, digits and the four marks that never need to be encoded. -/
def isUnreserved (c : Char) : Bool := c.isAlphanum || "-._~".contains c

/-- Marks that a part may use for a purpose of its own. -/
def isSubDelimiter (c : Char) : Bool := "!$&'()*+,;=".contains c

def isNameChar (c : Char) : Bool := isUnreserved c || isSubDelimiter c

def isUserChar (c : Char) : Bool := isNameChar c || c == ':'

def isPathChar (c : Char) : Bool := isNameChar c || c == ':' || c == '@' || c == '/'

/-- Queries and fragments have one class. -/
def isQueryChar (c : Char) : Bool := isPathChar c || c == '?'

def isHexDigit (c : Char) : Bool :=
  c.isDigit || ('a' ≤ c && c ≤ 'f') || ('A' ≤ c && c ≤ 'F')

/-- The text holds only characters of a class, and percent signs with two hexadecimal digits. -/
def consistsOf (allowed : Char → Bool) : List Char → Bool
  | '%' :: a :: b :: rest => isHexDigit a && isHexDigit b && consistsOf allowed rest
  | c :: rest => allowed c && consistsOf allowed rest
  | [] => true

/-! ## 2. Cuts -/

/-- The text up to the first occurrence of a mark, and what follows the mark if it occurs. -/
def cut (mark : Char) (cs : List Char) : List Char × Option (List Char) :=
  (cs.takeWhile (· != mark), (cs.dropWhile (· != mark)).tail?)

/-- The pieces of a text between the occurrences of a mark. -/
def pieces (mark : Char) : List Char → List (List Char)
  | [] => [[]]
  | c :: cs =>
    if c = mark then [] :: pieces mark cs
    else
      match pieces mark cs with
      | [] => [[c]]
      | piece :: others => (c :: piece) :: others

/-- The text up to the first double colon, and what follows that. -/
def cutAtGap : List Char → List Char × Option (List Char)
  | ':' :: ':' :: rest => ([], some rest)
  | c :: rest => (c :: (cutAtGap rest).1, (cutAtGap rest).2)
  | [] => ([], none)

/-! ## 3. Hosts -/

/-- A number from 0 to 255 without leading zeros. -/
def isOctet (cs : List Char) : Bool :=
  cs.all Char.isDigit && !cs.isEmpty && cs.length ≤ 3 && (cs.length == 1 || cs.head? != some '0')
    && cs.foldl (fun n c => n * 10 + (c.toNat - '0'.toNat)) 0 ≤ 255

def isVersion4 (cs : List Char) : Bool :=
  (pieces '.' cs).length == 4 && (pieces '.' cs).all isOctet

def isGroup (cs : List Char) : Bool := !cs.isEmpty && cs.length ≤ 4 && cs.all isHexDigit

/-- How many groups of an address these pieces are. The last one may be a version 4 address, which
takes the place of two. -/
def groupCount? : List (List Char) → Option Nat
  | [] => some 0
  | [last] => if isGroup last then some 1 else if isVersion4 last then some 2 else none
  | piece :: others => if isGroup piece then (groupCount? others).map (· + 1) else none

/-- How many groups a part of an address has, which may be empty. -/
def partCount? (cs : List Char) : Option Nat :=
  if cs.isEmpty then some 0 else groupCount? (pieces ':' cs)

/-- Eight groups; a double colon stands for those that are left out. -/
def isVersion6 (cs : List Char) : Bool :=
  match cutAtGap cs with
  | (whole, none) => partCount? whole == some 8
  | (front, some back) =>
    (front.isEmpty || (pieces ':' front).all isGroup)
      && match partCount? front, partCount? back with
        | some m, some n => m + n ≤ 7
        | _, _ => false

/-- A host ends the text or is followed by a colon and a service number, maybe without digits. -/
def isServicePart : Option (List Char) → Bool
  | none => true
  | some digits => digits.all Char.isDigit

/-- A host, maybe with a service number. A name may not hold colons; in brackets stands an address,
which does. Addresses of later versions are not known. -/
def isHost : List Char → Bool
  | '[' :: cs =>
    match cut ']' cs with
    | (address, some rest) =>
      isVersion6 address
        && match rest with
          | [] => true
          | ':' :: digits => digits.all Char.isDigit
          | _ => false
    | (_, none) => false
  | cs => consistsOf isNameChar (cut ':' cs).1 && isServicePart (cut ':' cs).2

/-- A host behind the name of a user, who may be left out. -/
def isAuthority (cs : List Char) : Bool :=
  match cut '@' cs with
  | (user, some host) => consistsOf isUserChar user && isHost host
  | (host, none) => isHost host

/-! ## 4. References -/

def isScheme : List Char → Bool
  | [] => false
  | c :: cs => c.isAlpha && cs.all fun d => d.isAlphanum || "+-.".contains d

/-- A path, behind two slashes and an authority or by itself. -/
def isHierarchy : List Char → Bool
  | '/' :: '/' :: cs =>
    isAuthority (cs.takeWhile (· != '/')) && consistsOf isPathChar (cs.dropWhile (· != '/'))
  | cs => consistsOf isPathChar cs

/-- A hierarchy, behind a scheme if the first segment has a colon. -/
def isSchemed (cs : List Char) : Bool :=
  if (cs.takeWhile (· != '/')).contains ':' then
    match cut ':' cs with
    | (scheme, some rest) => isScheme scheme && isHierarchy rest
    | (_, none) => false
  else isHierarchy cs

/-- The text is a URI reference. -/
def isReference (cs : List Char) : Bool :=
  let (front, fragment) := cut '#' cs
  let (hierarchy, query) := cut '?' front
  isSchemed hierarchy && query.all (consistsOf isQueryChar) && fragment.all (consistsOf isQueryChar)

end OffsideMarkup.Uri
