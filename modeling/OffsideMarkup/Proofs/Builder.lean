/-
OffsideMarkup.Proofs.Builder — reading a file the way a machine does it, step by step.

The readers of the grammar are total by their types: they cannot leave their line, step back or
fail. A machine that reads has none of these comforts. It stands on one token, stores nodes in
slots, puts children under parents by their indices, takes back what it has only tried, and repeats
its loops for as long as it sees fit. What could go wrong in it is a `Violation`, and a loop that
never ends gives no result at all.

The builder is that machine, function by function: the primitives, the loops, the rules for the
parts of a line, and the rules for lines. Loops and recursion have no measure: a rule that runs
itself again is the least fixed point of its equation, and the equation is proved beside it. That
the runs end is not built in here; it is proved (`OffsideMarkup.Proofs.BuilderTotal`). Coordinates
are words, and a place that has one that is no word is a violation. Indices are words too, but they
are cut down to words, as in `Slots`: of a text with more nodes than there are words the machine
mixes up nodes, and goes on.
-/
import OffsideMarkup.Grammar.Offside
import OffsideMarkup.Slots
import OffsideMarkup.Text.Number
import Mathlib.Control.LawfulFix

namespace OffsideMarkup

open OmegaCompletePartialOrder

/-! ## 1. The machine -/

/-- What must not happen while a file is read. -/
inductive Violation
  /-- A list goes on, but there is nothing to be put into it. -/
  | noElement
  /-- A list or a chain goes on without getting on in the text. -/
  | noProgress
  /-- A node is asked for that is not stored. -/
  | staleNode
  /-- A stretch that stops before it starts, in bytes. -/
  | reversedRange
  /-- A stretch that stops before it starts, in UTF-16 units. -/
  | negativeWidth
  /-- A place with a coordinate that does not fit a word. -/
  | overflow
  deriving DecidableEq, Repr, Inhabited

/-- A stored node. -/
structure Entry where
  kind : Kind
  extent : Extent
  /-- UTF-16 units covered. -/
  length : Nat
  missing : Bool
  /-- The width of the indentation of a line. -/
  level : Option Nat
  /-- The indices of the children, in document order. -/
  children : List Nat
  parent : Option Nat
  deriving DecidableEq, Repr, Inhabited

/-- The state of the machine. -/
structure Builder where
  scanner : Scanner
  nodes : Slots Entry
  findings : List Diagnostic

/-- A step of the machine: it gives no result if it does not come to an end. -/
abbrev Build := StateT Builder (ExceptT Violation Part)

/-- In front of a text, with nothing stored. -/
def Builder.create (text : List Char) : Builder := ⟨.start text, .empty, []⟩

/-- Every coordinate fits a word. -/
def Location.fits (l : Location) : Bool :=
  l.offset < wordBound && l.line < wordBound && l.column < wordBound && l.units < wordBound

namespace Build

/-! ## 2. Recursion

Steps are partial functions, and these have least fixed points. A rule that only puts steps one
behind the other, or chooses between them, is continuous in the runs that it starts; for such a rule
the least fixed point is a solution of its equation. -/

section
variable {α β ι κ : Type}

/-- A step without its layers. -/
abbrev Raw (α : Type) := Builder → Part (Except Violation (α × Builder))

noncomputable instance : OmegaCompletePartialOrder (ExceptT Violation Part α) :=
  inferInstanceAs (OmegaCompletePartialOrder (Part (Except Violation α)))

/-- Of two steps one is below the other if it ends in fewer states, and as the other does. -/
noncomputable instance : OmegaCompletePartialOrder (Build α) :=
  inferInstanceAs (OmegaCompletePartialOrder (Builder → ExceptT Violation Part (α × Builder)))

instance : Fix (Build α) := inferInstanceAs (Fix (Raw α))

instance : Fix (ι → κ → Build α) := inferInstanceAs (Fix (ι → κ → Raw α))

noncomputable instance : LawfulFix (Build α) := inferInstanceAs (LawfulFix (Raw α))

noncomputable instance : LawfulFix (ι → κ → Build α) :=
  inferInstanceAs (LawfulFix (ι → κ → Raw α))

variable {γ : Type} [OmegaCompletePartialOrder γ]

@[fun_prop]
theorem continuous_bind {m : γ → Build α} {next : γ → α → Build β} (hm : ωScottContinuous m)
    (hnext : ωScottContinuous next) : ωScottContinuous fun x => m x >>= next x := by
  refine ωScottContinuous.of_apply₂ fun b => ?_
  have first : ωScottContinuous fun x => m x b := hm.apply₂ b
  refine ContinuousHom.ωScottContinuous.bind first (ωScottContinuous.of_apply₂ fun r => ?_)
  cases r with
  | error v => exact ωScottContinuous.const
  | ok r => exact (hnext.apply₂ r.1).apply₂ r.2

@[fun_prop]
theorem continuous_ite {c : Prop} [Decidable c] {m n : γ → Build α} (hm : ωScottContinuous m)
    (hn : ωScottContinuous n) : ωScottContinuous fun x => if c then m x else n x := by
  split
  · exact hm
  · exact hn

end

/-! ## 3. Primitives -/

/-- The token the machine stands on. -/
def current : Build Token := return (← get).scanner.token

def isAt (kind : Kind) : Build Bool := return (← current).kind == kind

def isAtAny (kinds : KindSet) : Build Bool := return kinds.has (← current).kind

/-- Where the current token starts, the space in front of it included. -/
def here : Build Location := return (← current).start

/-- On to the next token. -/
def bump : Build Unit := do
  let next := (← get).scanner.scan
  if !next.token.stop.fits then throw .overflow
  modify fun b => { b with scanner := next }

/-- A stretch of the text. -/
def stretch (start stop : Location) : Build Extent := do
  if stop.offset < start.offset then throw .reversedRange
  return ⟨start, stop⟩

/-- A stored node. -/
def entry (id : Nat) : Build Entry := do
  match (← get).nodes.get? id with
  | some e => return e
  | none => throw .staleNode

/-- Tells nodes what their parent is. -/
def adopt (parent : Nat) : List Nat → Build Unit
  | [] => return ()
  | id :: ids => do
    let e ← entry id
    match (← get).nodes.set? id { e with parent := some parent } with
    | some nodes => modify fun b => { b with nodes := nodes }
    | none => throw .staleNode
    adopt parent ids

/-- Stores a node over its children. Which these are, the machine asks the node that it finds at
the index. -/
def alloc (e : Entry) : Build Nat := do
  let stored := (← get).nodes.alloc e
  modify fun b => { b with nodes := stored.2 }
  let found ← entry stored.1
  adopt stored.1 found.children
  return stored.1

/-- A node from a place to the current token. -/
def finish (start : Location) (kind : Kind) (children : List Nat) (missing : Bool)
    (level : Option Nat) : Build Nat := do
  let stop ← here
  if stop.units < start.units then throw .negativeWidth
  let extent ← stretch start stop
  alloc ⟨kind, extent, extent.length, missing, level, children, none⟩

/-- A leaf that is not there. -/
def missing (kind : Kind) : Build Nat := do
  let start ← here
  finish start kind [] true none

/-- The current token as a leaf. -/
def token : Build Nat := do
  let t ← current
  let start ← here
  bump
  finish start t.kind [] false none

/-- Reports against the current token. -/
def report (message : Message) (args : List String) : Build Unit := do
  let t ← current
  let extent ← stretch t.start t.stop
  modify fun b => { b with findings := b.findings ++ [.ofExtent message args extent] }

def eat (kind : Kind) : Build (Option Nat) := do
  if ← isAt kind then return some (← token)
  return none

def expect (kind : Kind) : Build Nat := do
  if ← isAt kind then return ← token
  report .tokenExpected [kind.display]
  missing kind

/-- A token of a kind with what comes behind it, or nothing. -/
def behind (kind : Kind) (rule : Build Nat) : Build (List Nat) := do
  match ← eat kind with
  | some id => return [id, ← rule]
  | none => return []

/-- UTF-16 units of the current token. -/
def width : Build Nat := do
  let t ← current
  if t.stop.units < t.start.units then throw .negativeWidth
  return t.stop.units - t.start.units

/-- The current token is a comment, and apart from the space in front there is nothing of it. -/
def atEmptyComment : Build Bool := do
  if ← isAt .comment then
    let span := (← current).span
    if span.stop < span.start then throw .reversedRange
    return span.start == span.stop
  else return false

/-- Tries something. If it comes to nothing, the machine is where it was. -/
def attempt {α : Type} (rule : Build (Option α)) : Build (Option α) := do
  let before ← get
  match ← rule with
  | some a => return some a
  | none =>
    modify fun b => ⟨before.scanner, b.nodes.truncate before.nodes.size,
      b.findings.take before.findings.length⟩
    return none

/-! ## 4. Loops -/

/-- An element of a list: it has to be there, and to take something off the text. -/
def checked (before : Nat) : Option Nat → Build Nat
  | none => throw .noElement
  | some id => do
    if (← here).offset = before then throw .noProgress
    return id

/-- Elements for as long as there are more. -/
def nodeList (more : Build Bool) (element : Build (Option Nat)) : Build (List Nat) :=
  Fix.fix fun others => do
    if ← more then
      let before := (← here).offset
      let id ← checked before (← element)
      return id :: (← others)
    else return []

theorem nodeList_eq (more : Build Bool) (element : Build (Option Nat)) :
    nodeList more element = do
      if ← more then
        let before := (← here).offset
        let id ← checked before (← element)
        return id :: (← nodeList more element)
      else return [] :=
  LawfulFix.fix_eq (by fun_prop)

/-- On to a token of a set. -/
def skipTo (stops : KindSet) : Build Unit :=
  Fix.fix fun further => do
    if ← isAtAny stops then return ()
    else
      bump
      further

theorem skipTo_eq (stops : KindSet) :
    skipTo stops = (do
      if ← isAtAny stops then return ()
      else
        bump
        skipTo stops) :=
  LawfulFix.fix_eq (by fun_prop)

/-- The items of a chain behind the first, with the dots. -/
def chainTail (item : Build Nat) (more : Build Bool) : Build (List Nat) :=
  Fix.fix fun others => do
    if ← more then
      let before := (← here).offset
      let dot ← expect .dot
      let id ← item
      if (← here).offset = before then throw .noProgress
      return dot :: id :: (← others)
    else return []

theorem chainTail_eq (item : Build Nat) (more : Build Bool) :
    chainTail item more = do
      if ← more then
        let before := (← here).offset
        let dot ← expect .dot
        let id ← item
        if (← here).offset = before then throw .noProgress
        return dot :: id :: (← chainTail item more)
      else return [] :=
  LawfulFix.fix_eq (by fun_prop)

/-- The width of the indentation the machine stands on, which it goes past. -/
def pastIndent : Build Nat := do
  if ← isAt .indentation then
    let level ← width
    bump
    return level
  else return 0

/-- From the comment of a blank line to the next line, if there is one. -/
def nextLine : Build Bool := do
  bump
  if ← isAt .lineBreak then
    bump
    return true
  else return false

/-- Over blank lines to the next line with content, for the sake of its indentation. -/
def findContent : Build Nat :=
  Fix.fix fun further => do
    let level ← pastIndent
    if ← atEmptyComment then
      if ← nextLine then further else return 0
    else if ← isAt .endOfText then return 0
    else return level

theorem findContent_eq :
    findContent = do
      let level ← pastIndent
      if ← atEmptyComment then
        if ← nextLine then findContent else return 0
      else if ← isAt .endOfText then return 0
      else return level :=
  LawfulFix.fix_eq (by fun_prop)

/-- The indentation of the next line with content. The machine stays where it is. -/
def lookAhead : Build Nat := do
  let before := (← get).scanner
  let level ← findContent
  modify fun b => { b with scanner := before }
  return level

/-! ## 5. Parts of lines -/

def lineEnds : KindSet := .ofList [.lineBreak, .endOfText]

/-- Everything up to a token of a set or the end of the line, maybe nothing. -/
def stringUntil (stops : KindSet) : Build Nat := do
  let start ← here
  skipTo (stops.union lineEnds)
  finish start .literal [] false none

/-- The same, but it has to be something. -/
def nameUntil (stops : KindSet) : Build Nat := do
  if ← isAtAny (stops.union lineEnds) then
    report .nonEmptyStringExpected []
    missing .literal
  else stringUntil stops

def dottedChain (item : Build Nat) (more : Build Bool) : Build Nat := do
  let start ← here
  let first ← item
  let others ← chainTail item more
  finish start .chain (first :: others) false none

def mustache : Build Nat := do
  let start ← here
  let opening ← expect .mustacheOpen
  let path ← dottedChain (nameUntil (.ofList [.dot, .equals, .mustacheClose])) (isAt .dot)
  let fallback ← behind .equals (stringUntil (.ofList [.mustacheClose]))
  let closing ← expect .mustacheClose
  finish start .mustache ([opening, path] ++ fallback ++ [closing]) false none

/-- One piece of a template. -/
def piece (stops : KindSet) : Build Nat := do
  if ← isAt .mustacheOpen then mustache
  else stringUntil (stops.insert .mustacheOpen)

/-- A template goes on where none of its stops comes next and its line goes on. -/
def goesOn (stops : KindSet) : Build Bool := return !(← isAtAny (stops.union lineEnds))

def templateUntil (stops : KindSet) : Build Nat := do
  let start ← here
  let parts ← nodeList (goesOn stops) (return some (← piece stops))
  finish start .template parts false none

def tagDescriptor : Build Nat := do
  let start ← here
  let nameStops := KindSet.ofList [.dot, .hashSign]
  let sigil ← expect .greaterThan
  let name ← nameUntil nameStops
  let classes ← behind .dot (dottedChain (templateUntil nameStops) (isAt .dot))
  let reference ← behind .hashSign (nameUntil .empty)
  finish start .tag ([sigil, name] ++ classes ++ reference) false none

/-- A hole behind which the line ends. -/
def loneMustache : Build (Option Nat) := do
  let hole ← mustache
  if ← isAtAny lineEnds then return some hole else return none

/-- A value that is a single hole is that hole, anything else is a template. -/
def attributeValue : Build Nat := do
  let lone ← if ← isAt .mustacheOpen then attempt loneMustache else pure none
  match lone with
  | some hole => return hole
  | none => templateUntil .empty

/-! ## 6. Lines -/

/-- What a line was found to be: its kind and its parts. -/
abbrev Found := Kind × List Nat

def lineEnd : Build Nat := do
  if ← isAt .endOfText then token else expect .lineBreak

/-- The end of a line behind its parts. -/
def closeLine (kind : Kind) (indent : Option Nat) (parts : List Nat) : Build Found := do
  let endOfLine ← lineEnd
  return (kind, indent.toList ++ parts ++ [endOfLine])

def attributeOrProperty (indent : Option Nat) : Build Found := do
  let sigil ← token
  let isProperty := (← entry sigil).kind == .percentSign
  let binding ← nameUntil (.ofList (if isProperty then [.equals, .atSign] else [.equals]))
  let trigger ← if isProperty then behind .atSign (nameUntil (.ofList [.equals])) else pure []
  let value ← behind .equals attributeValue
  closeLine .attribute indent ([sigil, binding] ++ trigger ++ value)

def eventHandler (indent : Option Nat) : Build Found := do
  let sigil ← token
  let nameStops := KindSet.ofList [.dot, .equals]
  let event ← nameUntil nameStops
  let modifiers ← behind .dot (dottedChain (nameUntil nameStops) (isAt .dot))
  let equals ← expect .equals
  let action ← nameUntil (.ofList [.colon])
  let parameter ← behind .colon (templateUntil .empty)
  closeLine .handler indent ([sigil, event] ++ modifiers ++ [equals, action] ++ parameter)

def textLine (indent : Option Nat) : Build Found := do
  let sigil ← token
  let content ← templateUntil .empty
  closeLine .textLine indent [sigil, content]

def mountingPoint (indent : Option Nat) : Build Found := do
  let sigil ← token
  let name ← nameUntil .empty
  closeLine .mountingPoint indent [sigil, name]

/-- A line that opens with a token that opens no line. -/
def unreadable (indent : Option Nat) : Build Found := do
  report .unexpectedToken [(← current).kind.display]
  let words ← stringUntil .empty
  closeLine .commentLine indent [words]

/-- A line without a block, by the kind of token it opens with. -/
def lineOf (indent : Option Nat) (kind : Kind) : Build Found := do
  match kind with
  | .hashSign | .percentSign => attributeOrProperty indent
  | .atSign => eventHandler indent
  | .dot | .bar => textLine indent
  | .plus | .minus => mountingPoint indent
  | .comment => closeLine .commentLine indent [← token]
  | .endOfText => closeLine .commentLine indent []
  | _ => unreadable indent

def simpleLine (indent : Option Nat) : Build Found := do lineOf indent (← current).kind

/-- Behind the indentation there is nothing on the line. -/
def atBlankLine : Build Bool := do
  if ← isAt .endOfText then return true else atEmptyComment

/-- Reports a line that is indented further than its block. -/
def unexpectedIndentation (indent level : Nat) (owner : Option Nat) : Build Unit := do
  let e ← entry indent
  let warning := Diagnostic.ofExtent .unexpectedIndentation [toString level, toString e.length]
    e.extent
  match owner with
  | none => modify fun b => { b with findings := b.findings ++ [warning] }
  | some tag =>
    let t ← entry tag
    let related := warning.withRelated t.extent "enclosing element declared here"
    modify fun b => { b with findings := b.findings ++ [related] }

def checkIndentation (indent width level : Nat) (owner : Option Nat) : Build Unit := do
  if level < width && !(← atBlankLine) then unexpectedIndentation indent level owner
  else return ()

/-- The indentation of a line, if there is one, and its width. -/
def lineStart (level : Nat) (owner : Option Nat) : Build (Option Nat × Nat) := do
  match ← eat .indentation with
  | none => return (none, 0)
  | some id =>
    let width := (← entry id).length
    checkIndentation id width level owner
    return (some id, width)

/-- A block goes on for as long as the next line with content is indented far enough. -/
def blockGoesOn (level : Nat) : Build Bool := do
  if ← isAt .endOfText then return false else return decide (level ≤ (← lookAhead))

/-- What reads the lines of a block, given its level and its owner. -/
abbrev BlockRule := Nat → Option Nat → Build (List Nat)

section
variable (inner : BlockRule)

/-- The block of an element, which it has if the next line with content is indented further. -/
def blockUnder (width tag : Nat) : Build (List Nat) := do
  if ← isAtAny lineEnds then return []
  else
    let next ← lookAhead
    if width < next then inner next (some tag) else return []

/-- The line of the tag, then the block under it. -/
def element (indent : Option Nat) (width : Nat) : Build Found := do
  let tag ← tagDescriptor
  let endOfLine ← lineEnd
  let children ← blockUnder inner width tag
  return (.element, indent.toList ++ [tag] ++ [endOfLine] ++ children)

def lineContent (indent : Option Nat) (width : Nat) : Build Found := do
  if ← isAt .greaterThan then element inner indent width else simpleLine indent

def line (level : Nat) (owner : Option Nat) : Build (Option Nat) := do
  if ← isAt .endOfText then return none
  else
    let start ← here
    let indent ← lineStart level owner
    let found ← lineContent inner indent.1 indent.2
    return some (← finish start found.1 found.2 false (some indent.2))

end

@[fun_prop]
theorem continuous_blockUnder (width tag : Nat) :
    ωScottContinuous fun inner => blockUnder inner width tag := by
  unfold blockUnder
  fun_prop

@[fun_prop]
theorem continuous_element (indent : Option Nat) (width : Nat) :
    ωScottContinuous fun inner => element inner indent width := by
  unfold element
  fun_prop

@[fun_prop]
theorem continuous_lineContent (indent : Option Nat) (width : Nat) :
    ωScottContinuous fun inner => lineContent inner indent width := by
  unfold lineContent
  fun_prop

@[fun_prop]
theorem continuous_line (level : Nat) (owner : Option Nat) :
    ωScottContinuous fun inner => line inner level owner := by
  unfold line
  fun_prop

/-- The lines of a block. -/
def block : BlockRule :=
  Fix.fix fun inner level owner => do
    if ← blockGoesOn level then
      let before := (← here).offset
      let id ← checked before (← line inner level owner)
      return id :: (← inner level owner)
    else return []

theorem block_eq :
    block = fun level owner => do
      if ← blockGoesOn level then
        let before := (← here).offset
        let id ← checked before (← line block level owner)
        return id :: (← block level owner)
      else return [] :=
  LawfulFix.fix_eq (by fun_prop)

/-- The whole file: its lines, and the end of the text. -/
def sourceFile : Build Nat := do
  let start ← here
  let lines ← block 0 none
  let endOfFile ← expect .endOfText
  finish start .file (lines ++ [endOfFile]) false none

end Build

/-- Reads a text. The answer is the index of the root, and the machine as it stands at the end; no
answer at all if it does not come to an end. -/
def build (text : List Char) : Part (Except Violation (Nat × Builder)) :=
  (do Build.bump; Build.sourceFile : Build Nat) (.create text)

end OffsideMarkup
