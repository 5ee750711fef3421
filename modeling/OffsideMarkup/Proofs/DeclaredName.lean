/-
OffsideMarkup.Proofs.DeclaredName — what a line declares, and where the name of it stands.

Elements and mounting points are declared. The name is made of the tokens behind the sigil, up to
one that ends names there; if there are none, it is missing.

* `Line.declared?` — the kind and the name of what a line declares; `Line.symbols_eq` puts the
  symbols of a line in these terms.
* `exists_names` — the name by its tokens (`Leaf.Names`), and the start of it on the line.
* `Scanner.ReadsLine.solid_body` — a word starts with something to be seen, so a name is missing
  exactly if nothing can be seen of it (`missing_iff`).
* `start_endOfLine` — the end of a line starts behind all the other tokens of the line.
-/
import OffsideMarkup.Editor.Outline
import OffsideMarkup.Proofs.FindingPlaces
import OffsideMarkup.Proofs.LineTokens

namespace OffsideMarkup

/-! ## 1. Declarations -/

/-- The kind of what a line declares that opens with a token of a kind. -/
def Kind.symbolKind? : Kind → Option SymbolKind
  | .greaterThan => some .element
  | .plus => some .listMountingPoint
  | .minus => some .mountingPoint
  | _ => none

/-- What ends a name behind a sigil of a kind. -/
def Kind.nameStops : Kind → KindSet
  | .greaterThan => .ofList [.dot, .hashSign]
  | _ => .empty

/-- What a line without lines under it declares: its kind and its name. -/
def Body.declared? : Body → Option (SymbolKind × Leaf)
  | .mountingPoint sigil name =>
    some (if sigil.kind = .plus then .listMountingPoint else .mountingPoint, name)
  | _ => none

/-- What a line declares: its kind and its name. -/
def Line.declared? : Line → Option (SymbolKind × Leaf)
  | .simple _ b => b.declared?
  | .element _ t _ => some (.element, t.name)

/-- A line has at most one symbol, that of what it declares. -/
theorem Line.symbols_eq (l : Line) :
    l.symbols = l.declared?.toList.map fun (kind, name) =>
      Symbol.declare l.frame.start (lastFrameOf l.frame l.children) name kind
        (symbolsOf l.children) := by
  cases l with
  | simple f b => cases b <;> simp [symbols, declared?, Body.declared?, frame, children,
      lastFrameOf, symbolsOf]
  | element f t ls => simp [symbols, declared?, frame, children]

namespace Reader

def Content.declared? : Content → Option (SymbolKind × Leaf)
  | .element tag => some (.element, tag.name)
  | .simple body => body.declared?

/-- The first token says what is declared, and the name is read behind it. -/
theorem declared?_content (stop t : Token) (ts : List Token) :
    (content stop (t :: ts)).value.declared?
      = t.kind.symbolKind?.map fun kind => (kind, (name t.kind.nameStops stop ts).value) := by
  cases kind : t.kind <;> simp only [content, kind]
  -- The two kinds of mounting points are told apart once more, by the sigil in the tree.
  case plus => show some (if t.kind = .plus then _ else _, _) = _; rw [kind]; rfl
  case minus => show some (if t.kind = .plus then _ else _, _) = _; rw [kind]; rfl
  all_goals rfl

end Reader

theorem declared?_of_row {l : Line} {tl : TokenLine} (row : l.row = Row.ofTokenLine tl) :
    l.declared? = (Reader.content tl.stop tl.body).value.declared? := by
  rw [Row.ofTokenLine] at row
  cases content : (Reader.content tl.stop tl.body).value <;> rw [content] at row <;> cases l
  all_goals simp [Line.row] at row
  all_goals simp [Line.declared?, Reader.Content.declared?, row]

/-! ## 2. Names -/

/-- The tokens that a name is made of, between the sigil in front of it and the rest of the line. -/
structure Leaf.Names (name : Leaf) (tl : TokenLine) (sigil : Token) (taken rest : List Token) :
    Prop where
  body : tl.body = sigil :: (taken ++ rest)
  kind : name.kind = .literal
  source : name.source = taken.flatMap Token.source
  missing : name.missing = taken.isEmpty
  start : name.start = nextStart tl.stop (taken ++ rest)

/-- The tokens of a name are the first ones that do not end it. -/
theorem Reader.name_tokens (stops : KindSet) (stop : Token) (given : List Token) :
    let taken := given.takeWhile fun t => !stops.has t.kind
    let name := (name stops stop given).value
    name.kind = .literal ∧ name.source = taken.flatMap Token.source
      ∧ name.missing = taken.isEmpty ∧ name.start = nextStart stop given := by
  cases given with
  | nil =>
    rw [name_of_stop (by simp)]
    simp [Leaf.absent, nextStart]
  | cons t ts =>
    cases h : stops.has t.kind with
    | true =>
      rw [name_of_stop (by simpa using h)]
      simp [h, Leaf.absent, nextStart]
    | false =>
      rw [name_of_content h, literal_of_content h]
      simp [h, Leaf.literal, nextStart]

theorem exists_names {l : Line} {tl : TokenLine} (row : l.row = Row.ofTokenLine tl)
    {kind : SymbolKind} {name : Leaf} (declared : l.declared? = some (kind, name)) :
    ∃ sigil taken rest, sigil.kind.symbolKind? = some kind ∧ name.Names tl sigil taken rest := by
  rw [declared?_of_row row] at declared
  cases body : tl.body with
  | nil =>
    rw [body] at declared
    exact absurd declared (by simp [Reader.content, Reader.done, Reader.Content.declared?,
      Body.declared?])
  | cons t ts =>
    rw [body, Reader.declared?_content] at declared
    obtain ⟨own, opens, pair⟩ := Option.map_eq_some_iff.mp declared
    obtain ⟨rfl, rfl⟩ := Prod.mk.inj pair
    obtain ⟨literal, source, missing, start⟩ :=
      Reader.name_tokens t.kind.nameStops tl.stop ts
    have split := List.takeWhile_append_dropWhile (p := fun u : Token => !t.kind.nameStops.has u.kind)
      (l := ts)
    exact ⟨t, _, _, opens, by rw [body, split], literal, source, missing, by rw [start, split]⟩

/-! ## 3. What can be seen -/

/-- A word starts with something to be seen. -/
theorem IsWord.solid {k : Kind} {cs behind : List Char} (h : IsWord k cs behind) :
    ∃ c ∈ cs.head?, isInlineSpace c = false := by
  cases h with
  | sigil _ sig => exact ⟨_, rfl, (sigil_is_content sig).2.1⟩
  | mustacheOpen => exact ⟨_, rfl, by decide⟩
  | mustacheClose => exact ⟨_, rfl, by decide⟩
  | textFragment h =>
    obtain ⟨c, first, solid, -⟩ := h.first
    exact ⟨c, first, solid⟩

theorem Words.solid {cs rest : List Char} {ts : List Token} (h : Words cs ts rest) :
    ∀ t ∈ ts, ∃ c ∈ t.lexeme.head?, isInlineSpace c = false := by
  induction h with
  | nil => simp
  | cons _ word _ ih => exact List.forall_mem_cons.mpr ⟨word.solid, ih⟩

/-- Tokens that start with something to be seen are none if they are all space. -/
theorem eq_nil_of_space {ts : List Token}
    (solid : ∀ t ∈ ts, ∃ c ∈ t.lexeme.head?, isInlineSpace c = false)
    (space : ∀ c ∈ ts.flatMap Token.source, isInlineSpace c = true) : ts = [] := by
  cases ts with
  | nil => rfl
  | cons t ts =>
    obtain ⟨c, first, visible⟩ := solid t List.mem_cons_self
    have mem : c ∈ (t :: ts).flatMap Token.source := by
      simp [Token.source, List.mem_of_mem_head? first]
    rw [space c mem] at visible
    exact absurd visible (by decide)

/-- Nothing is left of a text without the space around it if it is all space. -/
theorem trimInline_eq_nil {cs : List Char} :
    trimInline cs = [] ↔ ∀ c ∈ cs, isInlineSpace c = true := by
  rw [trimInline, List.reverse_eq_nil_iff, List.dropWhile_eq_nil_iff]
  simp only [List.mem_reverse]
  constructor
  · intro h c hc
    rw [← List.takeWhile_append_dropWhile (p := isInlineSpace) (l := cs), List.mem_append] at hc
    exact hc.elim (inlineSpace_takeWhile cs c) (h c)
  · exact fun h c hc => h c ((List.dropWhile_sublist _).mem hc)

/-- The tokens of a line that declares something are words. -/
theorem Scanner.ReadsLine.words {p e : Scanner} {tl : TokenLine} (line : p.ReadsLine tl e)
    {sigil : Token} {ts : List Token} (body : tl.body = sigil :: ts)
    (opens : sigil.kind.symbolKind?.isSome) :
    Words (tl.ended.body ++ tl.ended.ending) tl.body tl.stop.source := by
  have lexed := line.lexedBody
  generalize given : tl.body = ts' at lexed body
  cases lexed with
  | nothing => exact absurd body (by simp)
  | comment _ _ kind =>
    obtain ⟨rfl, -⟩ := List.cons.inj body
    rw [kind] at opens
    exact absurd opens (by decide)
  | words _ words => exact words

/-- What is declared without a name is so because nothing can be seen where the name should be. -/
theorem Leaf.Names.missing_iff {p e : Scanner} {tl : TokenLine} (line : p.ReadsLine tl e)
    {name : Leaf} {sigil : Token} {taken rest : List Token} (h : name.Names tl sigil taken rest)
    (opens : sigil.kind.symbolKind?.isSome) : name.missing = true ↔ name.text = [] := by
  rw [h.missing, Leaf.text, trimInline_eq_nil, h.source, List.isEmpty_iff]
  constructor
  · rintro rfl
    simp
  · refine eq_nil_of_space fun t ht => ?_
    exact (line.words h.body opens).solid t (by simp [h.body, ht])

/-- What is declared with a name shows the name, and something can be seen of it. -/
theorem Leaf.Names.name_declare {p e : Scanner} {tl : TokenLine} (line : p.ReadsLine tl e)
    {name : Leaf} {sigil : Token} {taken rest : List Token} (h : name.Names tl sigil taken rest)
    (opens : sigil.kind.symbolKind?.isSome) (there : name.missing = false) (start : Location)
    (last : Frame) (kind : SymbolKind) (nested : List Symbol) :
    let symbol := Symbol.declare start last name kind nested
    symbol.name = trimInline name.source ∧ symbol.name ≠ [] := by
  intro symbol
  have visible : name.text ≠ [] := fun nothing => by
    simp [(h.missing_iff line opens).mpr nothing] at there
  have shown : symbol.name = name.text := if_neg (by simpa using visible)
  rw [shown]
  exact ⟨rfl, visible⟩

/-! ## 4. Places -/

/-- A leaf inside its line shows what it has behind its leading space. -/
theorem Leaf.contentRegion_eq {l : Leaf} (inLine : l.kind ≠ .lineBreak) :
    l.contentRegion = ⟨⟨l.start.line, l.start.column + unitLength (l.source.takeWhile isInlineSpace)⟩,
      ⟨l.start.line, l.start.column + unitLength l.source⟩⟩ := by
  have stop : l.stop = l.start.after l.source := if_neg inLine
  have whole : unitLength l.source = unitLength (l.source.takeWhile isInlineSpace)
      + unitLength (l.source.dropWhile isInlineSpace) := by
    rw [← unitLength_append, List.takeWhile_append_dropWhile]
  have length : l.extent.length = unitLength l.source := by
    simp [Extent.length, Leaf.extent, stop, Location.after]
  have column : l.extent.endColumn = l.start.column + unitLength l.source := by
    simp [Extent.endColumn, Extent.crossesLine, Leaf.extent, stop, Location.after]
  simp only [contentRegion, leadingWidth, length, column]
  congr 2 <;> omega

section

variable {variant : Variant} {text : List Char} {l : Line} {tl : TokenLine}

/-- The end of a line starts behind all other tokens of the line. -/
theorem start_endOfLine (at_k : (TokenLine.ofText text)[l.lineNumber]? = some tl)
    (row : l.row = Row.ofTokenLine tl) : l.frame.endOfLine.start
      = (lineStart text l.lineNumber).after (tl.front.flatMap Token.source) := by
  have frame : l.frame.endOfLine = .ofToken tl.stop := by
    rw [← frame_row, row, frame_ofTokenLine]
  rw [frame, after_front at_k (List.append_nil _).symm]
  rfl

/-- The name starts behind the sigil. -/
theorem Leaf.Names.start_eq {k : Nat} (at_k : (TokenLine.ofText text)[k]? = some tl) {name : Leaf}
    {sigil : Token} {taken rest : List Token} (h : name.Names tl sigil taken rest) :
    name.start = (lineStart text k).after ((tl.indent.toList ++ [sigil]).flatMap Token.source) := by
  have split : tl.front = (tl.indent.toList ++ [sigil]) ++ (taken ++ rest) := by
    simp [TokenLine.front, h.body]
  rw [h.start, after_front at_k split]

/-- Where the name stands among what is in front of the end of the line. -/
theorem Leaf.Names.front_source {name : Leaf} {sigil : Token} {taken rest : List Token}
    (h : name.Names tl sigil taken rest) : tl.front.flatMap Token.source
      = (tl.indent.toList ++ [sigil]).flatMap Token.source ++ name.source
        ++ rest.flatMap Token.source := by
  simp [TokenLine.front, h.body, h.source]

/-- The lines of a file end on themselves. -/
theorem line_endOfLine (hl : l ∈ Line.withinAll (SourceFile.ofText variant text).lines) :
    l.frame.endOfLine.start.line = l.lineNumber := by
  obtain ⟨tl, at_k, row⟩ := exists_tokenLine hl
  rw [start_endOfLine at_k row]
  rfl

end

end OffsideMarkup
