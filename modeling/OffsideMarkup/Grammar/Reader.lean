/-
OffsideMarkup.Grammar.Reader — readers of the tokens of one line.

Every rule of the grammar reads from the tokens of a single line. A `Reader` is given those that
are left, and the token that ends the line, for its position only. It answers with a value, the
tokens still left and the findings on the way. The type of the answer says that what is left is an
end of what was given. So no reader can step back or leave its line, and a loop that takes one
token in each round ends.

A reader never fails. What is not there is reported, and put into the tree as a missing leaf.
-/
import OffsideMarkup.KindSet
import OffsideMarkup.Tree.Basic

namespace OffsideMarkup

/-! ## 1. Readings -/

/-- What a reader makes of the tokens it is given. -/
structure Reading (α : Type) (given : List Token) where
  value : α
  rest : List Token
  findings : List Diagnostic
  /-- Only a beginning of the tokens is taken. -/
  rest_suffix : rest <:+ given

/-- The tokens left are at most the tokens given. -/
theorem Reading.length_le {α : Type} {given : List Token} (r : Reading α given) :
    r.rest.length ≤ given.length := r.rest_suffix.length_le

/-- Reads the tokens of a line, given the token that ends it. -/
def Reader (α : Type) := (stop : Token) → (given : List Token) → Reading α given

namespace Reader

variable {α β : Type}

/-- Takes nothing. -/
def done (a : α) : Reader α := fun _ given => ⟨a, given, [], List.suffix_refl given⟩

/-- One reader, then another on what is left. -/
def andThen (r : Reader α) (next : α → Reader β) : Reader β := fun stop given =>
  let a := r stop given
  let b := next a.value stop a.rest
  ⟨b.value, b.rest, a.findings ++ b.findings, b.rest_suffix.trans a.rest_suffix⟩

instance : Monad Reader where
  pure := done
  bind := andThen

theorem pure_eq_done (a : α) : (pure a : Reader α) = done a := rfl

theorem bind_eq_andThen (r : Reader α) (next : α → Reader β) : r >>= next = r.andThen next := rfl

/-! ## 2. Looking -/

/-- The token to be read next, which behind the last one is the end of the line. -/
def current : Reader Token := fun stop given => ⟨given.headD stop, given, [], List.suffix_refl given⟩

/-- Where the next token starts. -/
def here : Reader Location := do return (← current).start

/-- Nothing is left of the line. -/
def atEnd : Reader Bool := fun _ given => ⟨given.isEmpty, given, [], List.suffix_refl given⟩

/-- Reports against the next token. -/
def report (message : Message) (args : List String) : Reader Unit := fun stop given =>
  ⟨(), given, [.ofExtent message args (given.headD stop).extent], List.suffix_refl given⟩

/-! ## 3. Taking -/

/-- The next token, if it is of a kind. -/
def eat (kind : Kind) : Reader (Option Leaf) := fun _ given =>
  match given with
  | [] => ⟨none, [], [], List.suffix_refl _⟩
  | t :: ts =>
    if t.kind = kind then ⟨some (.ofToken t), ts, [], List.suffix_cons t ts⟩
    else ⟨none, t :: ts, [], List.suffix_refl _⟩

/-- The next token, which should be of a kind. -/
def expect (kind : Kind) : Reader Leaf := do
  match ← eat kind with
  | some leaf => return leaf
  | none =>
    report .tokenExpected [kind.display]
    return .absent kind (← here)

/-- A token of a kind and what a reader finds behind it, or nothing. -/
def behind (kind : Kind) (r : Reader α) : Reader (Option (Leaf × α)) := do
  match ← eat kind with
  | some leaf => return some (leaf, ← r)
  | none => return none

/-- The longest run of tokens outside a set, as one literal. It may be empty. -/
def literal (stops : KindSet) : Reader Leaf := fun stop given =>
  ⟨.literal (given.headD stop).start (given.takeWhile fun t => !stops.has t.kind),
   given.dropWhile fun t => !stops.has t.kind,
   [], List.dropWhile_suffix _⟩

/-- Like `literal`, but a name has to be there. -/
def name (stops : KindSet) : Reader Leaf := do
  let next ← current
  if (← atEnd) || stops.has next.kind then
    report .nonEmptyStringExpected []
    return .absent .literal next.start
  else literal stops

/-! ## 4. Chains -/

/-- Items with a dot in front of each, for as long as a dot comes next. -/
def dotted (item : Reader α) : Reader (List (Leaf × α)) := fun stop given =>
  match given with
  | [] => ⟨[], [], [], List.suffix_refl _⟩
  | t :: ts =>
    if t.kind = .dot then
      let first := item stop ts
      let later := dotted item stop first.rest
      ⟨(.ofToken t, first.value) :: later.value, later.rest, first.findings ++ later.findings,
       (later.rest_suffix.trans first.rest_suffix).trans (List.suffix_cons t ts)⟩
    else ⟨[], t :: ts, [], List.suffix_refl _⟩
termination_by _ given => given.length
decreasing_by
  have := (item stop ts).length_le
  simp only [List.length_cons]
  omega

/-- Items with dots between them. -/
def chain (item : Reader α) : Reader (Chain α) := do
  let head ← item
  return ⟨head, ← dotted item⟩

end Reader

end OffsideMarkup
