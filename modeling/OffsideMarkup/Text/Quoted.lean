/-
OffsideMarkup.Text.Quoted — a text in quotes, for reading by people.

The quote, the backslash and the common controls get their short escapes; what would not show, or
would change how its neighbour shows, is written by its number in hexadecimal; all else stands as
it is.
-/
import OffsideMarkup.Text.Unprintable

namespace OffsideMarkup

/-- A character by number. -/
def escapeNumber (c : Char) : List Char :=
  ['\\', 'u', '{'] ++ Nat.toDigits 16 c.toNat ++ ['}']

/-- One character inside quotes. -/
def quoteChar (c : Char) : List Char :=
  if c = '\x00' then ['\\', '0']
  else if c = '\t' then ['\\', 't']
  else if c = '\r' then ['\\', 'r']
  else if c = '\n' then ['\\', 'n']
  else if c = '"' then ['\\', '"']
  else if c = '\\' then ['\\', '\\']
  else if isUnprintable c then escapeNumber c
  else [c]

/-- A text in quotes. -/
def quoted (cs : List Char) : List Char := '"' :: cs.flatMap quoteChar ++ ['"']

end OffsideMarkup
