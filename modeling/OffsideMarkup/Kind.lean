/-
OffsideMarkup.Kind — the kinds of token and of syntax node.

One enumeration serves both, in a fixed order: sigils, the tokens that hold text, the tokens that
hold space, then composite nodes with the six line kinds first. The order is the order in which
kinds sort, so `index` is the position in `all`.
-/

namespace OffsideMarkup

/-- What a token or a syntax node is. -/
inductive Kind
  | greaterThan | hashSign | percentSign | atSign | dot | bar | plus | minus | equals | colon
  | mustacheOpen | mustacheClose
  | textFragment
  | indentation | lineBreak | comment | endOfText | unknown
  | literal
  | file
  | commentLine | element | attribute | handler | textLine | mountingPoint
  | tag | template | mustache | chain
  deriving DecidableEq, Repr, Inhabited

namespace Kind

/-- Every kind, in the order in which kinds sort. -/
def all : List Kind :=
  [.greaterThan, .hashSign, .percentSign, .atSign, .dot, .bar, .plus, .minus, .equals, .colon,
   .mustacheOpen, .mustacheClose, .textFragment, .indentation, .lineBreak, .comment, .endOfText,
   .unknown, .literal, .file, .commentLine, .element, .attribute, .handler, .textLine,
   .mountingPoint, .tag, .template, .mustache, .chain]

theorem mem_all (k : Kind) : k ∈ all := by cases k <;> decide

/-- Where a kind stands in the sorting order. -/
def index (k : Kind) : Nat := all.idxOf k

/-! ## 1. Families -/

/-- Kinds that the lexer produces. -/
def isToken (k : Kind) : Bool := k.index ≤ Kind.unknown.index

/-- Indentation, line breaks and comment text. -/
def isTrivia : Kind → Bool
  | .indentation | .lineBreak | .comment => true
  | _ => false

/-- The six line kinds. -/
def isLine : Kind → Bool
  | .commentLine | .element | .attribute | .handler | .textLine | .mountingPoint => true
  | _ => false

/-! ## 2. Names -/

/-- The text of a kind that has only one. -/
def sigil? : Kind → Option String
  | .greaterThan => some ">"
  | .hashSign => some "#"
  | .percentSign => some "%"
  | .atSign => some "@"
  | .dot => some "."
  | .bar => some "|"
  | .plus => some "+"
  | .minus => some "-"
  | .equals => some "="
  | .colon => some ":"
  | .mustacheOpen => some "\x7b\x7b"
  | .mustacheClose => some "\x7d\x7d"
  | _ => none

/-- The name a kind has in printed trees. -/
def name : Kind → String
  | .greaterThan => "GREATER_THAN"
  | .hashSign => "HASH"
  | .percentSign => "PERCENT"
  | .atSign => "AT"
  | .dot => "DOT"
  | .bar => "BAR"
  | .plus => "PLUS"
  | .minus => "MINUS"
  | .equals => "EQ"
  | .colon => "COLON"
  | .mustacheOpen => "MUSTACHE_START"
  | .mustacheClose => "MUSTACHE_END"
  | .textFragment => "TEXT_FRAGMENT"
  | .indentation => "WHITESPACE"
  | .lineBreak => "NEW_LINE"
  | .comment => "COMMENT"
  | .endOfText => "EOF"
  | .unknown => "UNKNOWN"
  | .literal => "STRING_LITERAL"
  | .file => "SOURCE_FILE"
  | .commentLine => "COMMENT_LINE"
  | .element => "ELEMENT_DECLARATION"
  | .attribute => "ATTRIBUTE_OR_PROPERTY"
  | .handler => "EVENT_HANDLER"
  | .textLine => "TEXT_LINE"
  | .mountingPoint => "MOUNTING_POINT"
  | .tag => "TAG_DESCRIPTOR"
  | .template => "TEMPLATE_STRING"
  | .mustache => "MUSTACHE"
  | .chain => "DOTTED_CHAIN"

/-- The kind with a given printed name. -/
def ofName? (s : String) : Option Kind := all.find? (·.name == s)

/-- How a message to the author speaks of a kind: a sigil in quotes, a token by what it is, and a
composite by its printed name. -/
def display (k : Kind) : String :=
  match k.sigil? with
  | some s => "'" ++ s ++ "'"
  | none =>
    match k with
    | .textFragment => "text"
    | .indentation => "indentation"
    | .lineBreak => "line break"
    | .comment => "comment"
    | .endOfText => "end of file"
    | .unknown => "unknown"
    | .literal => "string literal"
    | k => k.name

theorem ofName?_name (k : Kind) : ofName? k.name = some k := by cases k <;> decide

/-! ## 3. Sorting -/

/-- Kinds in their order; equal kinds all stay. -/
def sort (ks : List Kind) : List Kind :=
  ks.mergeSort (fun a b => a.index ≤ b.index)

end Kind

end OffsideMarkup
