/-
OffsideMarkup.Proofs.OutlineNesting — the outline of a file is nested as the file is.

An outline is a list of symbols with symbols in them. What an editor asks of it concerns each symbol
and those directly in it (`Symbol.WellNested`): regions do not end before they start, a symbol holds
its name and what is nested in it, and neighbours come one behind the other.

* `Symbol.Shows` — a symbol stands for a node of the syntax tree, and what is nested in the symbol
  for what is nested in the node.
* `preorderAll_symbolsOf` — in the order of the outline the symbols are those of the lines, each line
  by itself.
* `wellNested_symbol` — the region of a symbol ends on the last line nested in it (`Line.last`). No
  line nested in it has a greater number, and the name stands on its first line in front of the end
  of that line, so all comparisons come down to the numbers of lines.
-/
import OffsideMarkup.Proofs.DeclaredName

namespace OffsideMarkup

/-! ## 1. Outlines -/

namespace Symbol

mutual
/-- A symbol and those nested in it, in the order of the outline. -/
def preorder : Symbol → List Symbol
  | node n k r s cs => node n k r s cs :: preorderAll cs

def preorderAll : List Symbol → List Symbol
  | [] => []
  | s :: ss => preorder s ++ preorderAll ss
end

theorem preorderAll_append (ss ts : List Symbol) :
    preorderAll (ss ++ ts) = preorderAll ss ++ preorderAll ts := by
  induction ss with
  | nil => rfl
  | cons s ss ih => simp [preorderAll, ih]

end Symbol

/-- One region lies in another. -/
def Region.Holds (r s : Region) : Prop := r.start.le s.start ∧ s.stop.le r.stop

/-- A symbol ends on a line before the one that the other starts on. -/
def Symbol.Precedes (s t : Symbol) : Prop := s.region.stop.line < t.region.start.line

/-- What editors ask of a symbol. -/
structure Symbol.WellNested (s : Symbol) : Prop where
  forward : s.region.start.le s.region.stop
  selection : s.selection.start.le s.selection.stop
  name : s.region.Holds s.selection
  nested : ∀ c ∈ s.children, s.region.Holds c.region
  siblings : s.children.Pairwise Symbol.Precedes

theorem Position.le_iff {p q : Position} :
    p.le q ↔ p.line < q.line ∨ p.line = q.line ∧ p.column ≤ q.column := by
  simp [Position.le]

/-- A node that an outline shows: an element or a mounting point. -/
def Label.declares (l : Label) : Bool :=
  l.isLine && (l.kind == .element || l.kind == .mountingPoint)

/-- What a line is about. -/
def Node.subject? (n : Node) : Option Label := n.preorder.find? (·.role == .subject)

/-- A symbol for a node, apart from what is nested in them: it starts on the line of the node and has
the name that is given there. Only without a name it is called `<unnamed>`. -/
structure Symbol.IsOf (s : Symbol) (n : Node) : Prop where
  start : s.region.start = ⟨n.label.extent.start.line, 0⟩
  element : s.kind = .element ↔ n.label.kind = .element
  name : ∃ subject, n.subject? = some subject
    ∧ (subject.missing = true → s.name = unnamed)
    ∧ (subject.missing = false → s.name = trimInline (subject.source.getD []) ∧ s.name ≠ [])

/-- A symbol stands for a node, and the symbols in it for those nodes in the node that an outline
shows. -/
inductive Symbol.Shows : Symbol → Node → Prop
  | intro {s : Symbol} {n : Node} (own : s.IsOf n)
      (nested : List.Forall₂ Symbol.Shows s.children (n.children.filter (·.label.declares))) :
      Symbol.Shows s n

/-! ## 2. Declaring nodes -/

theorem Line.declares_node (l : Line) : l.node.label.declares = l.declared?.isSome := by
  cases l with
  | simple f b => cases b <;> rfl
  | element f t ls => rfl

theorem Lineless.filter_declares {ts : List Node} (h : Lineless ts) :
    ts.filter (·.label.declares) = [] := by
  refine List.filter_eq_nil_iff.mpr fun t ht => ?_
  have inner := h.isLine_eq_false (Rose.mem_subtreesAll.mpr ⟨t, ht, t.self_mem_subtrees⟩)
  simp [Label.declares, inner]

theorem filter_declares_nodesOf (ls : List Line) :
    (Line.nodesOf ls).filter (·.label.declares)
      = (ls.filter (·.declared?.isSome)).map Line.node := by
  rw [Line.nodesOf_eq_map, List.filter_map]
  congr 1
  exact List.filter_congr fun l _ => l.declares_node

/-- The declarations directly in a line are those of the lines under it. -/
theorem Line.filter_declares_children (l : Line) :
    l.node.children.filter (·.label.declares)
      = (l.children.filter (·.declared?.isSome)).map Line.node := by
  cases l with
  | simple f b => exact ((Lineless.body b).around f).filter_declares
  | element f t ls =>
    show (f.around [t.node] ++ Line.nodesOf ls).filter _ = _
    rw [List.filter_append, ((Lineless.tag t).around f).filter_declares, filter_declares_nodesOf]
    rfl

theorem filter_declares_children_root (file : SourceFile) :
    file.root.children.filter (·.label.declares)
      = (file.lines.filter (·.declared?.isSome)).map Line.node := by
  show (Line.nodesOf file.lines ++ [file.endOfFile.node .part]).filter _ = _
  rw [List.filter_append, (Lineless.leaf file.endOfFile .part).filter_declares, List.append_nil,
    filter_declares_nodesOf]

/-- The declarations of a file are those of its lines. -/
theorem filter_declares_root (file : SourceFile) :
    file.root.subtrees.filter (·.label.declares)
      = ((Line.withinAll file.lines).filter (·.declared?.isSome)).map Line.node := by
  have lines : file.root.subtrees.filter (·.label.declares)
      = (file.root.subtrees.filter (·.label.isLine)).filter (·.label.declares) := by
    rw [List.filter_filter]
    refine List.filter_congr fun n _ => ?_
    cases line : n.label.isLine <;> simp [Label.declares, line]
  rw [lines, filter_isLine_root, List.filter_map]
  congr 1
  exact List.filter_congr fun l _ => l.declares_node

/-- A line is about the name of what it declares. -/
theorem Line.subject?_node {l : Line} {kind : SymbolKind} {name : Leaf}
    (declared : l.declared? = some (kind, name)) :
    l.node.subject? = some (name.node .subject).label := by
  -- The nodes in front of the name are the indentation, the sigil and, in an element, the tag.
  cases l with
  | simple f b =>
    cases b with
    | mountingPoint sigil own =>
      obtain ⟨-, rfl⟩ := Prod.mk.inj (Option.some.inj declared)
      cases indent : f.indent <;> simp [node, Node.subject?, Node.compose, Frame.around, indent,
        Body.nodes, Rose.preorder, Rose.preorderAll, Leaf.node, Rose.label]
    | _ => exact absurd declared (by simp [declared?, Body.declared?])
  | element f t ls =>
    obtain ⟨-, rfl⟩ := Prod.mk.inj (Option.some.inj declared)
    cases indent : f.indent <;> simp [node, Node.subject?, Node.compose, Frame.around, indent,
      Tag.node, Rose.preorder, Rose.preorderAll, Leaf.node, Rose.label]

/-! ## 3. The symbols of lines -/

theorem symbolsOf_eq_flatMap (ls : List Line) : Line.symbolsOf ls = ls.flatMap Line.symbols := by
  induction ls with
  | nil => rfl
  | cons l ls ih => rw [Line.symbolsOf, ih, List.flatMap_cons]

theorem Line.mem_symbols {l : Line} {s : Symbol} :
    s ∈ l.symbols ↔ ∃ kind name, l.declared? = some (kind, name)
      ∧ s = .declare l.frame.start (lastFrameOf l.frame l.children) name kind
        (symbolsOf l.children) := by
  rw [symbols_eq]
  simp [eq_comm]

/-- Nothing stands under a line that declares nothing. -/
theorem Line.children_of_undeclared {l : Line} (h : l.declared? = none) : l.children = [] := by
  cases l with
  | simple f b => rfl
  | element f t ls => exact absurd h (by simp [declared?])

/-- In the order of the outline there are the symbols of each line by itself. -/
theorem preorderAll_symbolsOf (ls : List Line) :
    Symbol.preorderAll (Line.symbolsOf ls) = (Line.withinAll ls).flatMap Line.symbols := by
  match ls with
  | [] => rfl
  | l :: ls =>
    have nested := preorderAll_symbolsOf l.children
    have later := preorderAll_symbolsOf ls
    have own : Symbol.preorderAll l.symbols
        = l.symbols ++ Symbol.preorderAll (Line.symbolsOf l.children) := by
      rw [l.symbols_eq]
      cases declared : l.declared? with
      | none =>
        simp [Line.children_of_undeclared declared, Line.symbolsOf, Symbol.preorderAll]
      | some d => simp [Symbol.declare, Symbol.preorder, Symbol.preorderAll]
    rw [Line.symbolsOf, Symbol.preorderAll_append, own, nested, later, Line.withinAll_cons,
      List.flatMap_cons, List.flatMap_append, List.append_assoc]
termination_by sizeOf ls
decreasing_by
  · exact Line.sizeOf_children_lt l ls
  · simp only [List.cons.sizeOf_spec]; omega

/-- If the symbols of lines show their nodes, they do so in the order of the lines. -/
theorem forall₂_symbols {ls : List Line} (each : ∀ l ∈ ls, ∀ s ∈ l.symbols, s.Shows l.node) :
    List.Forall₂ Symbol.Shows (ls.flatMap Line.symbols)
      ((ls.filter (·.declared?.isSome)).map Line.node) := by
  induction ls with
  | nil => exact .nil
  | cons l ls ih =>
    obtain ⟨first, later⟩ := List.forall_mem_cons.mp each
    have rest := ih later
    rw [List.flatMap_cons]
    rw [l.symbols_eq] at first ⊢
    cases declared : l.declared? with
    | none => simpa [declared] using rest
    | some d =>
      rw [List.filter_cons_of_pos (by simp [declared])]
      exact .cons (first _ (by simp [declared])) rest

section

variable {variant : Variant} {text : List Char} {l : Line} {s : Symbol}

/-- The symbol of a line has the name that stands on the line. -/
theorem isOf_symbol (hl : l ∈ Line.withinAll (SourceFile.ofText variant text).lines)
    (hs : s ∈ l.symbols) : s.IsOf l.node := by
  obtain ⟨kind, name, declared, rfl⟩ := Line.mem_symbols.mp hs
  obtain ⟨tl, at_k, row⟩ := exists_tokenLine hl
  obtain ⟨q, e, line, -⟩ := exists_readsLine at_k
  obtain ⟨sigil, taken, rest, opens, names⟩ := exists_names row declared
  have opens : sigil.kind.symbolKind?.isSome := by simp [opens]
  refine ⟨?_, ?_, _, Line.subject?_node declared, fun gone => ?_, fun there => ?_⟩
  · rw [l.start_node, frame_row]
    rfl
  · cases l with
    | simple f b =>
      cases b with
      | mountingPoint sigil own =>
        obtain ⟨rfl, -⟩ := Prod.mk.inj (Option.some.inj declared)
        refine iff_of_false ?_ (by simp [Line.node, Node.compose, Rose.label, Body.kind])
        simp only [Symbol.declare, Symbol.kind]
        split <;> decide
      | _ => exact absurd declared (by simp [Line.declared?, Body.declared?])
    | element f t ls =>
      obtain ⟨rfl, -⟩ := Prod.mk.inj (Option.some.inj declared)
      exact iff_of_true rfl rfl
  · have nothing := (names.missing_iff line opens).mp gone
    simp [Symbol.declare, Symbol.name, nothing]
  · exact names.name_declare line opens there ..

/-- The symbol of a line stands for the node of the line. -/
theorem shows_symbol (l : Line) (hl : l ∈ Line.withinAll (SourceFile.ofText variant text).lines) :
    ∀ s ∈ l.symbols, s.Shows l.node := by
  intro s hs
  refine .intro (isOf_symbol hl hs) ?_
  obtain ⟨kind, name, -, rfl⟩ := Line.mem_symbols.mp hs
  rw [l.filter_declares_children]
  show List.Forall₂ _ (Line.symbolsOf l.children) _
  rw [symbolsOf_eq_flatMap]
  exact forall₂_symbols fun c hc =>
    shows_symbol c ((Line.infix_children hl).subset (Line.mem_withinAll hc))
termination_by sizeOf l
decreasing_by exact l.sizeOf_lt_of_mem_children hc

/-! ## 4. Regions -/

/-- The symbol of a line goes from the start of the line to the end of the last line in it. -/
theorem region_symbol (hl : l ∈ Line.withinAll (SourceFile.ofText variant text).lines)
    (hs : s ∈ l.symbols) :
    s.region = ⟨⟨l.lineNumber, 0⟩, ⟨l.last.lineNumber, l.last.frame.endOfLine.start.column⟩⟩
      ∧ s.children = Line.symbolsOf l.children := by
  obtain ⟨kind, name, -, rfl⟩ := Line.mem_symbols.mp hs
  have number := line_endOfLine (Line.last_mem_withinAll hl)
  refine ⟨?_, rfl⟩
  simp only [Symbol.declare, Symbol.region, l.frame_last, Location.position, number]
  rfl

/-- The name of a symbol stands on the line of the symbol and in front of the end of it. -/
theorem selection_symbol (hl : l ∈ Line.withinAll (SourceFile.ofText variant text).lines)
    (hs : s ∈ l.symbols) : ∃ first stop, s.selection = ⟨⟨l.lineNumber, first⟩, ⟨l.lineNumber, stop⟩⟩
      ∧ first ≤ stop ∧ stop ≤ l.frame.endOfLine.start.column := by
  obtain ⟨kind, name, declared, rfl⟩ := Line.mem_symbols.mp hs
  obtain ⟨tl, at_k, row⟩ := exists_tokenLine hl
  obtain ⟨sigil, taken, rest, -, names⟩ := exists_names row declared
  have region := name.contentRegion_eq (by rw [names.kind]; decide)
  have start := names.start_eq at_k
  have stop := start_endOfLine at_k row
  have space : unitLength (name.source.takeWhile isInlineSpace) ≤ unitLength name.source := by
    conv_rhs => rw [← List.takeWhile_append_dropWhile (p := isInlineSpace) (l := name.source),
      unitLength_append]
    exact Nat.le_add_right ..
  refine ⟨name.start.column + unitLength (name.source.takeWhile isInlineSpace),
    name.start.column + unitLength name.source, ?_, by omega, ?_⟩
  · show name.contentRegion = _
    rw [region, start]
    rfl
  · rw [start, stop, names.front_source, Location.after_append, Location.after_append]
    exact Nat.le_add_right ..

/-- The symbols of neighbouring lines come one behind the other. -/
theorem pairwise_symbolsOf {ls : List Line}
    (stretch : Line.withinAll ls <:+: Line.withinAll (SourceFile.ofText variant text).lines) :
    (Line.symbolsOf ls).Pairwise Symbol.Precedes := by
  have lines : ∀ l ∈ ls, l ∈ Line.withinAll (SourceFile.ofText variant text).lines :=
    fun l hl => stretch.subset (Line.mem_withinAll hl)
  have order := pairwise_of_infix stretch
  rw [Line.withinAll_eq_flatMap, List.pairwise_flatMap] at order
  rw [symbolsOf_eq_flatMap, List.pairwise_flatMap]
  refine ⟨fun l _ => ?_, order.2.imp_of_mem fun hl hm before s hs t ht => ?_⟩
  · rw [l.symbols_eq]
    cases l.declared? <;> simp
  · rw [Symbol.Precedes, (region_symbol (lines _ hl) hs).1, (region_symbol (lines _ hm) ht).1]
    exact before _ (Line.last_mem_within _) _ (Line.mem_within _)

theorem wellNested_symbol (hl : l ∈ Line.withinAll (SourceFile.ofText variant text).lines)
    (hs : s ∈ l.symbols) : s.WellNested := by
  obtain ⟨region, children⟩ := region_symbol hl hs
  obtain ⟨first, stop, selection, forward, inside⟩ := selection_symbol hl hs
  have own := eq_last_or_lt hl l.mem_within
  refine ⟨?_, ?_, ⟨?_, ?_⟩, fun c hc => ?_, ?_⟩
  · rw [region, Position.le_iff]
    rcases own with same | less
    · exact .inr ⟨congrArg Line.lineNumber same, Nat.zero_le _⟩
    · exact .inl less
  · rw [selection, Position.le_iff]
    exact .inr ⟨rfl, forward⟩
  · rw [region, selection, Position.le_iff]
    exact .inr ⟨rfl, Nat.zero_le _⟩
  · rw [region, selection, Position.le_iff]
    rcases own with same | less
    · rw [← same]
      exact .inr ⟨rfl, inside⟩
    · exact .inl less
  · rw [children, symbolsOf_eq_flatMap] at hc
    obtain ⟨m, hm, hc⟩ := List.mem_flatMap.mp hc
    have nested := Line.mem_withinAll hm
    have line := (Line.infix_children hl).subset nested
    have last : m.last ∈ l.within := by
      rw [Line.within_eq]
      exact List.mem_cons_of_mem _ (Line.last_mem_withinAll nested)
    rw [Region.Holds, region, (region_symbol line hc).1, Position.le_iff, Position.le_iff]
    refine ⟨.inl (lineNumber_lt_of_mem_nested hl nested), ?_⟩
    rcases eq_last_or_lt hl last with same | less
    · rw [same]
      exact .inr ⟨rfl, Nat.le_refl _⟩
    · exact .inl less
  · rw [children]
    exact pairwise_symbolsOf (Line.infix_children hl)

end

/-! ## 5. Files -/

/-- The symbols of a text, as they are sent when nothing is cancelled, are a well-nested outline of
its elements and mounting points: in the order of the outline they stand for these lines in the
order of the text, nested as the lines are, and each has the name given there, `<unnamed>` if none
is. A symbol holds its name and the symbols in it, and symbols next to each other come one behind the
other. -/
theorem outline_well_nested (variant : Variant) (text : List Char) :
    let file := SourceFile.ofText variant text
    (∀ a : Analysis, a.tree = file → a.symbolsUnless false = .ok file.symbols)
      ∧ List.Forall₂ Symbol.Shows (Symbol.preorderAll file.symbols)
        (file.root.subtrees.filter (·.label.declares))
      ∧ List.Forall₂ Symbol.Shows file.symbols (file.root.children.filter (·.label.declares))
      ∧ (∀ s ∈ Symbol.preorderAll file.symbols, s.WellNested)
      ∧ file.symbols.Pairwise Symbol.Precedes := by
  intro file
  refine ⟨fun a tree => ?_, ?_, ?_, fun s hs => ?_, pairwise_symbolsOf (List.infix_refl _)⟩
  · rw [Analysis.symbolsUnless, Analysis.lineByLine, tree]
    rfl
  · rw [filter_declares_root, SourceFile.symbols, preorderAll_symbolsOf]
    exact forall₂_symbols shows_symbol
  · rw [filter_declares_children_root, SourceFile.symbols, symbolsOf_eq_flatMap]
    exact forall₂_symbols fun l hl => shows_symbol l (Line.mem_withinAll hl)
  · rw [SourceFile.symbols, preorderAll_symbolsOf] at hs
    obtain ⟨l, hl, hs⟩ := List.mem_flatMap.mp hs
    exact wellNested_symbol hl hs

end OffsideMarkup
