/-
OffsideMarkup.Text.LetterCase — a text in lower case.

Letters go to their lower case one by one, with two exceptions. The dotted capital I becomes a small
i and a combining dot. A capital sigma becomes the final small sigma at the end of a word: a letter
stands before it and none after it, characters that carry no case of their own not being looked at.
-/
import OffsideMarkup.Text.CaseTable

namespace OffsideMarkup

/-- The first character that counts for the end of a word is a letter with case. -/
def reachesCased (cs : List Char) : Bool :=
  (cs.dropWhile isCaseIgnorable).head?.any isCased

/-- The lower case of what comes, `before` being what came, the last character first. -/
def lowercaseFrom (before : List Char) : List Char → List Char
  | [] => []
  | c :: cs =>
    let small :=
      if c = '\u0130' then ['i', '\u0307']
      else if c = '\u03a3' then
        if reachesCased before && !reachesCased cs then ['\u03c2'] else ['\u03c3']
      else [lowercaseLetter c]
    small ++ lowercaseFrom (c :: before) cs

/-- A text in lower case. -/
def lowercase (cs : List Char) : List Char := lowercaseFrom [] cs

/-- A text starts with a capital letter. -/
def startsUppercase (cs : List Char) : Bool := cs.head?.any isUppercase

end OffsideMarkup
