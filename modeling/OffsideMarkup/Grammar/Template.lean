/-
OffsideMarkup.Grammar.Template — names, holes and text.

What the lines of the markup are made of. A hole is a pair of double braces around a path, with an
optional text behind an equals sign; inside it only the closing braces end the text. A template is
literal text and holes in any order, up to a kind of token that the line says, or to its end.

The value of an attribute is one hole by itself or a template. Both can start with double braces,
so the reader tries the hole and looks whether the line ends behind it. If not, it reads the same
tokens again as a template, and what the try had to report is forgotten.
-/
import OffsideMarkup.Grammar.Reader

namespace OffsideMarkup.Reader

/-! ## 1. Holes -/

/-- A hole whose opening braces are read already. -/
def mustacheBehind (opening : Leaf) : Reader Mustache := do
  let path ← chain (name (.ofList [.dot, .equals, .mustacheClose]))
  let fallback ← behind .equals (literal (.ofList [.mustacheClose]))
  let closing ← expect .mustacheClose
  return ⟨opening, path, fallback, closing⟩

/-! ## 2. Templates -/

/-- The pieces of a template. A literal piece is never empty, since it starts with the token that
was seen to be none of those that stop it. -/
def parts (stops : KindSet) : Reader (List TemplatePart) := fun stop given =>
  match given with
  | [] => ⟨[], [], [], List.suffix_refl _⟩
  | t :: ts =>
    if stops.has t.kind then ⟨[], t :: ts, [], List.suffix_refl _⟩
    else if t.kind = .mustacheOpen then
      let hole := mustacheBehind (.ofToken t) stop ts
      let later := parts stops stop hole.rest
      ⟨.mustache hole.value :: later.value, later.rest, hole.findings ++ later.findings,
       (later.rest_suffix.trans hole.rest_suffix).trans (List.suffix_cons t ts)⟩
    else
      let inside := fun u : Token => !(stops.insert .mustacheOpen).has u.kind
      let later := parts stops stop (ts.dropWhile inside)
      ⟨.literal (.literal t.start (t :: ts.takeWhile inside)) :: later.value, later.rest,
       later.findings,
       (later.rest_suffix.trans (List.dropWhile_suffix inside)).trans (List.suffix_cons t ts)⟩
termination_by _ given => given.length
decreasing_by
  · have := (mustacheBehind (.ofToken t) stop ts).length_le
    simp only [List.length_cons]
    omega
  · have := (List.dropWhile_suffix (l := ts)
      fun u : Token => !(stops.insert .mustacheOpen).has u.kind).length_le
    simp only [List.length_cons]
    omega

/-- Literal text and holes, up to a token of a set or the end of the line. -/
def template (stops : KindSet) : Reader Template := do
  let start ← here
  return ⟨start, ← parts stops⟩

/-! ## 3. Values -/

/-- The hole that makes up the rest of a line, if it does. -/
def loneMustache? (stop : Token) (given : List Token) : Option (Reading Mustache given) :=
  match given with
  | [] => none
  | t :: ts =>
    if t.kind = .mustacheOpen then
      let hole := mustacheBehind (.ofToken t) stop ts
      if hole.rest.isEmpty then
        some ⟨hole.value, hole.rest, hole.findings, hole.rest_suffix.trans (List.suffix_cons t ts)⟩
      else none
    else none

/-- The value of an attribute or a property, up to the end of the line. -/
def value : Reader Value := fun stop given =>
  match loneMustache? stop given with
  | some hole => ⟨.mustache hole.value, hole.rest, hole.findings, hole.rest_suffix⟩
  | none =>
    let text := template .empty stop given
    ⟨.template text.value, text.rest, text.findings, text.rest_suffix⟩

end OffsideMarkup.Reader
