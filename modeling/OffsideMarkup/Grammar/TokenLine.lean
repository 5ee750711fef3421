/-
OffsideMarkup.Grammar.TokenLine — the tokens of a text, line by line.

No rule of the grammar crosses a line break, so the tokens are cut into lines before anything is
read. A line has its indentation, the tokens of its content, and the token that ends it. The end of
the text ends a line only if something stands in front of it: a text that ends in a line break has
no line behind that.
-/
import OffsideMarkup.Scanner

namespace OffsideMarkup

/-- The tokens of one line. -/
structure TokenLine where
  indent : Option Token
  body : List Token
  /-- The line break or the end of the text. -/
  stop : Token
  deriving Repr, Inhabited

namespace TokenLine

/-- A line from its tokens. An indentation can only be the first of them. -/
def ofTokens (ts : List Token) (stop : Token) : TokenLine :=
  match ts with
  | [] => ⟨none, [], stop⟩
  | t :: rest => if t.kind = .indentation then ⟨some t, rest, stop⟩ else ⟨none, t :: rest, stop⟩

/-- Where a line starts. -/
def start (l : TokenLine) : Location :=
  match l.indent with
  | some t => t.start
  | none => (l.body.headD l.stop).start

/-- The lines of a stream of tokens, `before` being those already seen of the line at hand, the
last one first. -/
def split (before : List Token) : List Token → List TokenLine
  | [] => []
  | t :: ts =>
    if t.kind = .lineBreak then ofTokens before.reverse t :: split [] ts
    else if t.kind = .endOfText then
      if before.isEmpty then [] else [ofTokens before.reverse t]
    else split (t :: before) ts

/-- The lines of a text. -/
def ofText (text : List Char) : List TokenLine := split [] (tokens text)

end TokenLine

end OffsideMarkup
