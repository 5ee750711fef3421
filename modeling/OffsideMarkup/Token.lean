/-
OffsideMarkup.Token — tokens and the cut that takes one off a text.

A token is a kind, the place where it starts, the space in front of it and its own text. Where it
stops is computed from those, so a token cannot disagree with its text about its width.

`cut` is one step of the lexer. It looks at three things only: the kind of the token before, the
column it stands at, and the text to come. Space at column 0 is a token, the indentation; any other
space is carried in front of the token that follows it. A sigil is a token of its own everywhere.
What else may come depends on whether a line is just being opened: there the rest of the line is a
comment, and it may be empty, which is how a blank line looks; further on it is a brace pair, a line
break or a text fragment.

The scan of a fragment keeps space inside it, but gives back the space in front of a sigil, a brace
or a line break, where it belongs to the next token. At the end of the text there is no next token
worth its space, and the fragment keeps it.
-/
import OffsideMarkup.Kind
import OffsideMarkup.Text.Location

namespace OffsideMarkup

/-! ## 1. Characters that start tokens -/

/-- The kind of a character that is a token by itself. -/
def sigilKind? (c : Char) : Option Kind :=
  if c == '>' then some .greaterThan
  else if c == '#' then some .hashSign
  else if c == '%' then some .percentSign
  else if c == '@' then some .atSign
  else if c == '.' then some .dot
  else if c == '|' then some .bar
  else if c == '+' then some .plus
  else if c == '-' then some .minus
  else if c == '=' then some .equals
  else if c == ':' then some .colon
  else none

/-- Characters that end a text fragment: sigils, braces and line breaks. -/
def startsToken (c : Char) : Bool :=
  (sigilKind? c).isSome || c == '{' || c == '}' || isLineBreak c

/-! ## 2. Lexemes -/

/-- The part of a fragment behind its first character, and what follows it. A space is kept only if
the run of space it stands in leads to more text or to the end. -/
def fragmentTail : List Char → List Char × List Char
  | [] => ([], [])
  | c :: cs =>
    if startsToken c then ([], c :: cs)
    else if isInlineSpace c && ((cs.dropWhile isInlineSpace).head?.any startsToken) then ([], c :: cs)
    else
      let tail := fragmentTail cs
      (c :: tail.1, tail.2)

/-- The lexeme of a line break: a carriage return takes a line feed behind it along. -/
def lineBreakTail (c : Char) : List Char → List Char × List Char
  | '\n' :: cs => if c == '\r' then (['\n'], cs) else ([], '\n' :: cs)
  | cs => ([], cs)

/-- The first lexeme of a text without leading space: its kind, its text and the rest. `opening`
says that it is the first of a line, indentation aside. -/
def lexeme (opening : Bool) : List Char → Kind × List Char × List Char
  | [] => (.endOfText, [], [])
  | c :: cs =>
    match sigilKind? c with
    | some kind => (kind, [c], cs)
    | none =>
      if opening then
        (.comment, (c :: cs).takeWhile (!isLineBreak ·), (c :: cs).dropWhile (!isLineBreak ·))
      else if c == '{' && cs.head? == some '{' then (.mustacheOpen, ['{', '{'], cs.tail)
      else if c == '}' && cs.head? == some '}' then (.mustacheClose, ['}', '}'], cs.tail)
      else if isLineBreak c then
        let tail := lineBreakTail c cs
        (.lineBreak, c :: tail.1, tail.2)
      else
        let tail := fragmentTail cs
        (.textFragment, c :: tail.1, tail.2)

/-! ## 3. Tokens -/

/-- One token with the space in front of it. -/
structure Token where
  kind : Kind
  /-- Where the space in front starts. -/
  start : Location
  trivia : List Char
  lexeme : List Char
  deriving DecidableEq, Repr, Inhabited

namespace Token

/-- The token with its space, as it stands in the text. -/
def source (t : Token) : List Char := t.trivia ++ t.lexeme

/-- Just past the token. -/
def stop (t : Token) : Location :=
  if t.kind = .lineBreak then (t.start.after t.source).nextLine else t.start.after t.source

/-- The bytes of the token without the space in front. -/
def span (t : Token) : Span := ⟨t.start.offset + byteLength t.trivia, t.stop.offset⟩

/-- UTF-16 units of the token with its space. -/
def width (t : Token) : Nat := unitLength t.source

/-- The comment that a blank line starts with. -/
def isEmptyComment (t : Token) : Bool := t.kind == .comment && t.lexeme.isEmpty

def extent (t : Token) : Extent := ⟨t.start, t.stop⟩

end Token

/-! ## 4. The cut -/

/-- The token before opens a line: nothing yet, a line break or the indentation. -/
def Kind.opensLine : Kind → Bool
  | .unknown | .lineBreak | .indentation => true
  | _ => false

/-- The next token of a text and what is left, given the kind of the token before. -/
def cut (previous : Kind) (here : Location) (text : List Char) : Token × List Char :=
  let space := text.takeWhile isInlineSpace
  let body := text.dropWhile isInlineSpace
  if here.column = 0 ∧ space ≠ [] then (⟨.indentation, here, [], space⟩, body)
  else
    let next := lexeme previous.opensLine body
    (⟨next.1, here, space, next.2.1⟩, next.2.2)

/-! ## 5. Nothing is lost, and the lexer gets on

`source_cut` says that the token and the rest are the text again. The two lemmas behind it say
when a cut makes the text shorter: always, but at the end of the text and for the comment of a
blank line, which does not open a line a second time. -/

theorem fragmentTail_append (cs : List Char) : (fragmentTail cs).1 ++ (fragmentTail cs).2 = cs := by
  induction cs with
  | nil => rfl
  | cons c cs ih =>
    unfold fragmentTail
    split
    · rfl
    · split
      · rfl
      · simp [ih]

theorem lineBreakTail_append (c : Char) (cs : List Char) :
    (lineBreakTail c cs).1 ++ (lineBreakTail c cs).2 = cs := by
  unfold lineBreakTail
  split
  · split <;> rfl
  · rfl

theorem lexeme_append (opening : Bool) (cs : List Char) :
    (lexeme opening cs).2.1 ++ (lexeme opening cs).2.2 = cs := by
  cases cs with
  | nil => rfl
  | cons c cs =>
    simp only [lexeme]
    split
    · rfl
    · split
      · exact List.takeWhile_append_dropWhile
      · split
        · next h =>
          simp only [Bool.and_eq_true, beq_iff_eq] at h
          obtain ⟨rfl, h⟩ := h
          cases cs with
          | nil => simp at h
          | cons d ds => simp at h; subst h; rfl
        · split
          · next h =>
            simp only [Bool.and_eq_true, beq_iff_eq] at h
            obtain ⟨rfl, h⟩ := h
            cases cs with
            | nil => simp at h
            | cons d ds => simp at h; subst h; rfl
          · split
            · simp [lineBreakTail_append]
            · simp [fragmentTail_append]

theorem source_cut (previous : Kind) (here : Location) (text : List Char) :
    (cut previous here text).1.source ++ (cut previous here text).2 = text := by
  have split_space := List.takeWhile_append_dropWhile (p := isInlineSpace) (l := text)
  simp only [cut]
  split
  · simp [Token.source]
  · simp only [Token.source, List.append_assoc, lexeme_append]
    exact split_space

/-- A lexeme is empty only at the end of the text, or where a blank line opens. -/
theorem lexeme_ne_nil (opening : Bool) (cs : List Char)
    (h : (lexeme opening cs).1 ≠ .endOfText)
    (blank : ¬((lexeme opening cs).1 = .comment ∧ (lexeme opening cs).2.1 = [])) :
    (lexeme opening cs).2.1 ≠ [] := by
  cases cs with
  | nil => simp [lexeme] at h
  | cons c cs =>
    revert blank
    simp only [lexeme]
    split
    · simp
    · split
      · intro blank; simpa using blank
      · split
        · simp
        · split
          · simp
          · split <;> simp

theorem lexeme_comment {opening : Bool} {cs : List Char} (h : (lexeme opening cs).1 = .comment) :
    opening = true := by
  cases cs with
  | nil => simp [lexeme] at h
  | cons c cs =>
    revert h
    simp only [lexeme]
    split
    · next k hk =>
      intro h
      simp only at h
      subst h
      simp only [sigilKind?] at hk
      repeat' split at hk
      all_goals simp at hk
    · split
      · next ho => exact fun _ => ho
      · split
        · simp
        · split
          · simp
          · split <;> simp

/-- A token takes something off the text unless it is the end or the comment of a blank line. -/
theorem length_cut_lt {previous : Kind} {here : Location} {text : List Char}
    (h : (cut previous here text).1.kind ≠ .endOfText)
    (blank : (cut previous here text).1.isEmptyComment = false) :
    (cut previous here text).2.length < text.length := by
  have whole := congrArg List.length (source_cut previous here text)
  have some_text : (cut previous here text).1.source ≠ [] := by
    revert h blank
    simp only [cut]
    split
    · next hc => intro _ _; simpa [Token.source] using hc.2
    · intro h blank
      simp only [Token.source, ne_eq, List.append_eq_nil_iff, not_and]
      intro _
      refine lexeme_ne_nil _ _ h ?_
      simpa [Token.isEmptyComment] using blank
  have := List.length_pos_iff.mpr some_text
  simp only [List.length_append] at whole
  omega

theorem length_cut_le (previous : Kind) (here : Location) (text : List Char) :
    (cut previous here text).2.length ≤ text.length := by
  have whole := congrArg List.length (source_cut previous here text)
  simp only [List.length_append] at whole
  omega

/-- A comment follows only what opens a line. -/
theorem opensLine_of_cut_comment {previous : Kind} {here : Location} {text : List Char}
    (h : (cut previous here text).1.kind = .comment) : previous.opensLine = true := by
  revert h
  simp only [cut]
  split
  · simp
  · exact fun h => lexeme_comment h

end OffsideMarkup
