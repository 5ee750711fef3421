/-
OffsideMarkup.Proofs.MessageText — what a message says.

`fill` goes over a template character by character, and where a brace opens a placeholder it leaps
over that. Its recursion follows how much of the template is left, so nothing can be computed by
unfolding it where arguments are unknown. Instead there is an equation for each thing a template can
start with: a stretch without braces (`fill_plain`), a placeholder (`fill_placeholder`), and a brace
that opens none (`fill_brace`). A message of the catalogue is a few of these one after the other,
whatever its arguments are.
-/
import OffsideMarkup.Diagnostic.Message

namespace OffsideMarkup

/-! ## 1. Templates -/

section
variable {args : List (List Char)} {cs : List Char}

theorem fill_char {c : Char} (h : c ≠ '{') (cs : List Char) :
    fill args (c :: cs) = c :: fill args cs := by
  rw [fill, if_neg h]

/-- Text without a brace stays as it is. -/
theorem fill_plain {front : List Char} (h : '{' ∉ front) (cs : List Char) :
    fill args (front ++ cs) = front ++ fill args cs := by
  induction front with
  | nil => rfl
  | cons c front ih =>
    rw [List.mem_cons, not_or] at h
    rw [List.cons_append, fill_char (Ne.symm h.1), ih h.2, List.cons_append]

theorem fill_of_notMem (h : '{' ∉ cs) : fill args cs = cs := by
  have whole : fill args (cs ++ []) = cs ++ fill args [] := fill_plain h []
  rwa [List.append_nil, fill, List.append_nil] at whole

/-- A placeholder becomes its argument, if there is one for its index. -/
theorem fill_placeholder {n : Nat} {inner rest : List Char}
    (h : placeholder? cs = some (n, inner, rest)) :
    fill args ('{' :: cs) = (args[n]?).getD ('{' :: inner ++ ['}']) ++ fill args rest := by
  rw [fill, if_pos rfl]
  split
  · next found =>
    rw [h] at found
    obtain ⟨rfl, rfl, rfl⟩ := by simpa using found
    rfl
  · next none =>
    rw [h] at none
    exact absurd none (by simp)

/-- A brace that opens no placeholder stays as it is. -/
theorem fill_brace (h : placeholder? cs = none) :
    fill args ('{' :: cs) = '{' :: fill args cs := by
  rw [fill, if_pos rfl]
  split
  · next found => exact absurd (h ▸ found) (by simp)
  · rfl

end

/-! ## 2. Messages of the catalogue -/

theorem placeholder?_zero (cs : List Char) :
    placeholder? ('0' :: '}' :: cs) = some (0, ['0'], cs) := rfl

namespace Message

/-- The error about a missing token names it. -/
theorem format_tokenExpected (token : String) :
    format .tokenExpected [token] = "Token " ++ token ++ " expected." := by
  have template : template .tokenExpected =
      String.ofList ("Token ".toList ++ '{' :: '0' :: '}' :: " expected.".toList) := by decide
  rw [format, template, String.toList_ofList, fill_plain (by decide),
    fill_placeholder (placeholder?_zero _), fill_of_notMem (by decide), ← String.toList_inj]
  simp [String.toList_append]

/-- The error about a token that opens no line names it. -/
theorem format_unexpectedToken (token : String) :
    format .unexpectedToken [token] = "Unexpected token " ++ token := by
  have template : template .unexpectedToken =
      String.ofList ("Unexpected token ".toList ++ ['{', '0', '}']) := by decide
  rw [format, template, String.toList_ofList, fill_plain (by decide),
    fill_placeholder (placeholder?_zero _), fill, ← String.toList_inj]
  simp [String.toList_append]

/-- The warning about an indentation names both widths. -/
theorem format_unexpectedIndentation (expected found : String) :
    format .unexpectedIndentation [expected, found]
      = "Unexpected indentation: expected " ++ expected ++ " columns, found " ++ found ++ "." := by
  have template : template .unexpectedIndentation =
      String.ofList ("Unexpected indentation: expected ".toList ++ '{' :: '0' :: '}' ::
        (" columns, found ".toList ++ ['{', '1', '}', '.'])) := by decide
  have second (cs : List Char) : placeholder? ('1' :: '}' :: cs) = some (1, ['1'], cs) := rfl
  rw [format, template, String.toList_ofList, fill_plain (by decide),
    fill_placeholder (placeholder?_zero _), fill_plain (by decide), fill_placeholder (second _),
    fill_of_notMem (by decide), ← String.toList_inj]
  simp [String.toList_append]

end Message

end OffsideMarkup
