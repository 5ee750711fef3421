/-
OffsideMarkup.Proofs.Coordinates — every place that is ever noted is a place of the document.

A place is noted by the lexer, which counts while it reads, and handed on: to the nodes of the tree
and to the findings. A document asked about the byte works the place out from its table of lines.
`Location.Charted` is what makes the two one. A location is charted if reading the text from its
start comes to it, at a cut that tears no line break apart. Then the document gives it the same
line, column and units, and between two of them stands as much text as their difference says
(`Location.Charted.through`).

* `Stands.scan` — a step of the lexer goes from one charted location to another.
* `charted_row` — inside a line, where locations are derived from the text of leaves and not from
  tokens, the nodes start and stop at charted locations.
* `charted_nodesOf` — nested lines only use the ends of what is in them.
* `charted_diagnosticsOf` — a finding takes its place from a token or from a node.

A leaf that moved to the next line would spoil this. That there is none in front of the end of a
line is seen by counting: such leaves are the only ones that count lines, and the last node in front of
the end of the line stops on the line on which the first one starts (`Sound.line_eq_add_breaks`).
`coordinates_agree` then says of a document what it knows about everything noted about its text.
-/
import OffsideMarkup.Proofs.Findings
import OffsideMarkup.Proofs.LineTable
import OffsideMarkup.Proofs.Lossless

namespace OffsideMarkup

/-! ## 1. Charted locations -/

theorem Whole.of_append {xs ys zs : List Char} (h : Whole xs (ys ++ zs)) : Whole xs ys := by
  rintro ⟨last, next⟩
  refine h ⟨last, ?_⟩
  rw [List.head?_append, next, Option.some_or]

/-- A text is cut in one way at a byte. -/
theorem append_inj_of_byteLength {xs ys zs ws : List Char} (split : xs ++ ys = zs ++ ws)
    (h : byteLength xs = byteLength zs) : xs = zs ∧ ys = ws := by
  have front : xs = zs := by
    rw [← takeBytes_byteLength xs ys, split, h, takeBytes_byteLength]
  subst front
  exact ⟨rfl, List.append_cancel_left split⟩

namespace Location

/-- Reading a text from its start comes to this location, where no line break is torn apart. -/
def Charted (text : List Char) (l : Location) : Prop :=
  ∃ before after, text = before ++ after ∧ Whole before after ∧ l = origin.through before

variable {text : List Char} {a b l : Location}

theorem charted_origin (text : List Char) : Charted text origin :=
  ⟨[], text, rfl, whole_nil text, rfl⟩

theorem offset_origin_through (cs : List Char) : (origin.through cs).offset = byteLength cs :=
  (offset_through origin cs).trans (Nat.zero_add _)

/-- The table of lines gives a charted location its position. -/
theorem Charted.position? (h : Charted text l) :
    position? text (.ofText text) l.offset = some l.position := by
  obtain ⟨before, after, rfl, whole, rfl⟩ := h
  rw [offset_origin_through]
  exact position?_byteLength whole

/-- The units of a charted location are those of the text in front of it. -/
theorem Charted.units (h : Charted text l) : l.units = unitLength (takeBytes l.offset text) := by
  obtain ⟨before, after, rfl, -, rfl⟩ := h
  rw [offset_origin_through, takeBytes_byteLength]
  exact (units_through origin before).trans (Nat.zero_add _)

/-- What stands between two charted locations leads from one to the other. -/
theorem Charted.through (ha : Charted text a) (hb : Charted text b) (le : a.offset ≤ b.offset) :
    b = a.through (sliceBytes a.offset b.offset text) := by
  obtain ⟨before, after, rfl, whole, rfl⟩ := ha
  obtain ⟨before', after', split, -, rfl⟩ := hb
  rw [offset_origin_through, offset_origin_through] at le ⊢
  obtain ⟨between, rfl, rfl⟩ :
      ∃ between, before' = before ++ between ∧ after = between ++ after' := by
    rcases List.append_eq_append_iff.mp split with ⟨between, h⟩ | ⟨between, h, h'⟩
    · exact ⟨between, h⟩
    · have none : between = [] := by
        by_contra some_text
        have := byteLength_pos some_text
        rw [h, byteLength_append] at le
        omega
      subst none
      exact ⟨[], by simpa using h.symm, by simpa using h'.symm⟩
  rw [byteLength_append, ← List.append_assoc, sliceBytes_append, through_append _ whole.of_append]

/-- Text without a break in it leads from one charted location to another. -/
theorem Charted.after {before cs after : List Char} (h : Charted (before ++ cs ++ after) a)
    (offset : a.offset = byteLength before) (unbroken : Unbroken cs) :
    Charted (before ++ cs ++ after) (a.after cs) := by
  obtain ⟨front, back, split, whole, rfl⟩ := h
  rw [offset_origin_through] at offset
  rw [List.append_assoc] at split
  obtain ⟨rfl, rfl⟩ := append_inj_of_byteLength split offset.symm
  refine ⟨before ++ cs, after, rfl, whole.append_unbroken unbroken, ?_⟩
  rw [through_append _ whole.of_append, through_unbroken _ unbroken]

theorem startsBehind_eq_nil (here : Nat) {cs : List Char} :
    startsBehind here cs = [] ↔ Unbroken cs := by
  constructor
  · intro none
    rcases lastLine_cases ⟨here, 0, 0, 0⟩ cs with ⟨unbroken, -⟩ | ⟨head, tail, init, -, -, some, -⟩
    · exact unbroken
    · rw [none] at some
      exact absurd some (by simp)
  · intro unbroken
    have := startsBehind_unbroken here unbroken []
    rwa [List.append_nil] at this

/-- A text stays on its line if there is no break in it. -/
theorem line_through_eq_iff {cs : List Char} : (l.through cs).line = l.line ↔ Unbroken cs := by
  rw [line_through, ← startsBehind_eq_nil l.offset, ← List.length_eq_zero_iff]
  omega

end Location

/-! ## 2. Charted extents -/

/-- An extent between two charted locations. -/
structure Extent.Charted (text : List Char) (e : Extent) : Prop where
  start : e.start.Charted text
  stop : e.stop.Charted text
  order : e.start.offset ≤ e.stop.offset

namespace Extent.Charted

variable {text : List Char} {e : Extent}

theorem stop_eq (h : e.Charted text) :
    e.stop = e.start.through (sliceBytes e.span.start e.span.stop text) :=
  h.start.through h.stop h.order

theorem length (h : e.Charted text) :
    e.length = unitLength (sliceBytes e.span.start e.span.stop text) := by
  rw [Extent.length, h.stop_eq, Location.units_through, Nat.add_sub_cancel_left]

theorem crossesLine (h : e.Charted text) :
    e.crossesLine = false ↔ Unbroken (sliceBytes e.span.start e.span.stop text) := by
  rw [← Location.line_through_eq_iff (l := e.start), ← h.stop_eq, Extent.crossesLine]
  simp

end Extent.Charted

/-! ## 3. The lexer -/

theorem Token.start_le_stop (t : Token) : t.start.offset ≤ t.stop.offset := by
  rw [Token.stop]
  split <;> exact Nat.le_add_right ..

namespace Scanner

/-- The scanner stands in this text: its token starts at a charted location and stops at one, behind
which is what the scanner has left. -/
structure Stands (text : List Char) (s : Scanner) : Prop where
  start : s.token.start.Charted text
  stop : ∃ before, text = before ++ s.rest ∧ Whole before s.rest
    ∧ s.token.stop = Location.origin.through before

variable {text : List Char} {s p e f : Scanner}

theorem Stands.charted_stop (h : s.Stands text) : s.token.stop.Charted text := by
  obtain ⟨before, split, whole, stop⟩ := h.stop
  exact ⟨before, s.rest, split, whole, stop⟩

theorem Stands.charted (h : s.Stands text) : s.token.extent.Charted text :=
  ⟨h.start, h.charted_stop, s.token.start_le_stop⟩

theorem stands_start (text : List Char) : (start text).Stands text :=
  ⟨Location.charted_origin text, [], rfl, whole_nil text, rfl⟩

theorem Stands.scan (h : s.Stands text) : s.scan.Stands text := by
  obtain ⟨before, split, whole, stop⟩ := h.stop
  have source := s.source_scan
  rw [← source] at split whole
  refine ⟨s.start_scan ▸ h.charted_stop, before ++ s.scan.token.source, ?_, ?_, ?_⟩
  · rw [split, List.append_assoc]
  · by_cases brk : s.scan.token.kind = .lineBreak
    · rw [Token.source, ← List.append_assoc]
      exact (scan_of_lineBreak brk).2.whole _
    · exact whole.append_unbroken (unbroken_scan brk)
  · rw [Location.through_append _ whole.of_append, ← stop, Token.stop, start_scan]
    split
    · next brk =>
      -- The space in front of a break moves the column, the break itself goes to the next line.
      have space : Unbroken s.scan.token.trivia := unbroken_of_inlineSpace s.inlineSpace_trivia
      have lexeme : IsBreak s.scan.token.lexeme [] := (scan_of_lineBreak brk).2.alone
      have torn : Whole s.scan.token.trivia s.scan.token.lexeme :=
        (whole_nil _).append_unbroken space
      have own := Location.through_break (s.token.stop.after s.scan.token.trivia) lexeme
      rw [List.append_nil] at own
      rw [Token.source, Location.through_append _ torn, Location.through_unbroken _ space, own,
        Location.after_append]
      rfl
    · next brk => rw [Location.through_unbroken _ (unbroken_scan brk)]

theorem Stands.scanTimes (h : s.Stands text) (n : Nat) : (scanTimes n s).Stands text := by
  induction n generalizing s with
  | zero => exact h
  | succ n ih => exact ih h.scan

/-- All tokens met on the way are charted, the last one included. -/
theorem Passes.charted {ts : List Token} (h : s.Passes ts e) (here : s.Stands text) :
    e.Stands text ∧ ∀ t ∈ ts ++ [e.token], t.extent.Charted text := by
  induction ts generalizing s with
  | nil =>
    rw [Passes] at h
    subst h
    exact ⟨here, List.forall_mem_singleton.mpr here.charted⟩
  | cons t ts ih =>
    obtain ⟨rfl, h⟩ := h
    obtain ⟨stands, later⟩ := ih h here.scan
    exact ⟨stands, List.forall_mem_cons.mpr ⟨here.charted, later⟩⟩

/-- Every line of a text is read from a scanner that stands in the text. -/
theorem Reads.stands {ls : List TokenLine} (h : p.Reads ls f) (here : p.Stands text) :
    f.Stands text ∧ ∀ l ∈ ls, ∃ q e : Scanner, q.ReadsLine l e ∧ q.Stands text := by
  induction h with
  | done => exact ⟨here.scan, by simp⟩
  | @line p e f l ls first later ih =>
    obtain ⟨stands, lines⟩ := ih (first.passes.charted here.scan).1
    exact ⟨stands, List.forall_mem_cons.mpr ⟨⟨p, e, first, here⟩, lines⟩⟩

end Scanner

/-! ## 4. Leaves -/

/-- A line break leads to the next line, any other leaf to a place further on its line. -/
def Label.Advances (l : Label) : Prop :=
  ∀ cs, l.source = some cs → l.extent.stop =
    if l.kind = .lineBreak then (l.extent.start.after cs).nextLine else l.extent.start.after cs

theorem kept_advances : Kept Label.Advances where
  leaf l role := by
    rintro cs text
    obtain rfl := Option.some.inj text
    rfl
  part _ _ _ _ := by
    rintro cs text
    exact absurd text (by simp [Node.compose, Rose.label])

/-- A leaf that leads to the next line. -/
def Label.isBreak (l : Label) : Bool := l.isLeaf && l.kind == .lineBreak

namespace Node

variable {a b : Location} {t : Node} {ts : List Node}

theorem Tile.line_eq_add_breaks (h : Tile a b ts)
    (each : ∀ t ∈ ts, t.label.extent.stop.line
      = t.label.extent.start.line + t.preorder.countP Label.isBreak) :
    b.line = a.line + (Rose.preorderAll ts).countP Label.isBreak := by
  induction ts generalizing a with
  | nil =>
    rw [Tile] at h
    subst h
    rfl
  | cons t ts ih =>
    obtain ⟨rfl, later⟩ := h
    rw [ih later fun u hu => each u (List.mem_cons_of_mem t hu), each t List.mem_cons_self,
      Rose.preorderAll, List.countP_append, Nat.add_assoc]

/-- A node leads over as many lines as there are breaks among its leaves. -/
theorem Sound.line_eq_add_breaks (h : t.Sound) (advances : Everywhere Label.Advances [t]) :
    t.label.extent.stop.line = t.label.extent.start.line + t.preorder.countP Label.isBreak := by
  induction h with
  | @leaf l cs text =>
    have leaf : l.isLeaf = true := by rw [Label.isLeaf, text]; rfl
    rw [Rose.label, advances.label cs text, Rose.preorder, Rose.preorderAll, List.countP_singleton,
      Label.isBreak, leaf]
    by_cases brk : l.kind = .lineBreak <;> simp [brk, Location.after, Location.nextLine]
  | @composite l ts text missing tile parts ih =>
    have inner : l.isBreak = false := by rw [Label.isBreak, Label.isLeaf, text]; rfl
    rw [Rose.label, Rose.preorder, List.countP_cons_of_neg (by simp [inner])]
    exact tile.line_eq_add_breaks fun u hu => ih u hu (advances.under.of_mem hu)

theorem Tile.ends {Q : Location → Prop} (h : Tile a b ts)
    (carry : ∀ t ∈ ts, Q t.label.extent.start → Q t.label.extent.stop) (start : Q a) :
    (∀ t ∈ ts, Q t.label.extent.start) ∧ Q b := by
  induction ts generalizing a with
  | nil =>
    rw [Tile] at h
    subst h
    exact ⟨by simp, start⟩
  | cons t ts ih =>
    obtain ⟨rfl, later⟩ := h
    obtain ⟨starts, stop⟩ := ih later (fun u hu => carry u (List.mem_cons_of_mem t hu))
      (carry t List.mem_cons_self start)
    exact ⟨List.forall_mem_cons.mpr ⟨start, starts⟩, stop⟩

/-- What every leaf hands on from its start to its stop holds wherever a node starts or stops. -/
theorem Sound.ends {Q : Location → Prop} (h : t.Sound)
    (carry : ∀ u ∈ t.subtrees, u.label.isLeaf = true →
      Q u.label.extent.start → Q u.label.extent.stop)
    (start : Q t.label.extent.start) :
    ∀ u ∈ t.subtrees, Q u.label.extent.start ∧ Q u.label.extent.stop := by
  induction h with
  | @leaf l cs text =>
    have leaf : l.isLeaf = true := by rw [Label.isLeaf, text]; rfl
    intro u hu
    rcases Rose.mem_subtrees_node.mp hu with rfl | ⟨v, hv, -⟩
    · exact ⟨start, carry _ hu leaf start⟩
    · simp at hv
  | @composite l ts text missing tile parts ih =>
    have under : ∀ v ∈ ts, Q v.label.extent.start →
        ∀ u ∈ v.subtrees, Q u.label.extent.start ∧ Q u.label.extent.stop := fun v hv start =>
      ih v hv (fun u hu => carry u (Rose.mem_subtrees_node.mpr (.inr ⟨v, hv, hu⟩))) start
    obtain ⟨starts, stop⟩ :=
      tile.ends (fun v hv start => (under v hv start v v.self_mem_subtrees).2) start
    intro u hu
    rcases Rose.mem_subtrees_node.mp hu with rfl | ⟨v, hv, hu⟩
    · exact ⟨start, stop⟩
    · exact under v hv (starts v hv) u hu

/-- In a stretch without breaks everything starts and stops at a charted location, if the stretch
starts at one and does not leave its line. -/
theorem Sound.charted {text : List Char} (h : t.Sound) (place : t.Placed text)
    (advances : Everywhere Label.Advances [t]) (unbroken : Unbroken (Node.source t))
    (line : t.label.extent.stop.line = t.label.extent.start.line)
    (start : t.label.extent.start.Charted text) :
    ∀ u ∈ t.subtrees, u.label.extent.Charted text := by
  have breaks : t.preorder.countP Label.isBreak = 0 := by
    have := h.line_eq_add_breaks advances
    omega
  have ends := h.ends (Q := Location.Charted text) ?_ start
  · exact fun u hu => ⟨(ends u hu).1, (ends u hu).2, (h.of_mem_subtrees u hu).start_le_stop⟩
  intro u hu leaf start
  have label : u.label ∈ t.preorder := by
    rw [← Rose.map_label_subtrees]
    exact List.mem_map_of_mem hu
  have inner : u.label.kind ≠ .lineBreak := by
    have := List.countP_eq_zero.mp breaks u.label label
    simpa [Label.isBreak, leaf] using this
  obtain ⟨cs, text⟩ := Option.isSome_iff_exists.mp leaf
  obtain ⟨before, after, rfl, offset⟩ := h.placed place u hu
  have source : Node.source u = cs := by
    cases h.of_mem_subtrees u hu with
    | leaf text' =>
      obtain rfl := Option.some.inj (text.symm.trans text')
      rw [source_node, text', List.flatMap_nil, List.append_nil]
      rfl
    | composite none => exact absurd (none.symm.trans text) (by simp)
  rw [advances.of_mem_subtrees hu cs text, if_neg inner, ← source]
  refine start.after offset fun c hc => unbroken c ?_
  refine List.mem_flatMap.mpr ⟨u.label, label, ?_⟩
  rw [text]
  exact source ▸ hc

/-- The same of nodes side by side: they are looked at as if they were the parts of one. -/
theorem Fill.charted {text before cs after : List Char} (h : Fill a b cs ts)
    (split : text = before ++ cs ++ after) (offset : a.offset = byteLength before)
    (advances : Everywhere Label.Advances ts) (unbroken : Unbroken cs) (line : b.line = a.line)
    (start : a.Charted text) : Everywhere (·.extent.Charted text) ts := by
  have whole := h.compose .tag none
  have extent := extent_compose h.tile .tag none
  have source : Node.source (Node.compose .tag a ts none) = cs := by
    have := whole.source
    rwa [List.flatMap_singleton] at this
  have place : (Node.compose .tag a ts none).Placed text :=
    ⟨before, after, by rw [source]; exact split, by rw [extent]; exact offset⟩
  have charted := (whole.sound _ List.mem_cons_self).charted place
    (Everywhere.compose kept_advances advances rfl a none) (by rw [source]; exact unbroken)
    (by rw [extent]; exact line) (by rw [extent]; exact start)
  intro l hl
  rw [← Rose.map_label_subtreesAll, List.mem_map] at hl
  obtain ⟨u, hu, rfl⟩ := hl
  exact charted u (List.mem_cons_of_mem _ hu)

end Node

/-! ## 5. Lines -/

/-- A span and a region are taken from a charted extent. -/
def IsPlace (text : List Char) (span : Span) (region : Region) : Prop :=
  ∃ e : Extent, e.Charted text ∧ e.span = span ∧ e.region = region

/-- A finding has its place from a charted extent, and so has everything related to it. -/
structure Diagnostic.Charted (text : List Char) (d : Diagnostic) : Prop where
  own : IsPlace text d.span d.region
  related : ∀ r ∈ d.related, IsPlace text r.span r.region

theorem Extent.Charted.isPlace {text : List Char} {e : Extent} (h : e.Charted text) :
    IsPlace text e.span e.region := ⟨e, h, rfl, rfl⟩

theorem Extent.Charted.ofExtent {text : List Char} {e : Extent} (h : e.Charted text)
    (message : Message) (args : List String) : (Diagnostic.ofExtent message args e).Charted text :=
  ⟨h.isPlace, fun _ hr => absurd hr (by simp [Diagnostic.ofExtent])⟩

/-- A row with all places in it. -/
structure Row.Charted (text : List Char) (r : Row) : Prop where
  start : r.frame.start.Charted text
  nodes : Everywhere (·.extent.Charted text) r.nodes
  findings : ∀ d ∈ r.frame.findings, d.Charted text

theorem charted_row {text : List Char} {p e : Scanner} {l : TokenLine} (h : p.ReadsLine l e)
    (here : p.Stands text) : (Row.ofTokenLine l).Charted text := by
  obtain ⟨-, tokens⟩ := h.passes.charted here.scan
  rw [h.stop] at tokens
  refine ⟨?_, ?_, ?_⟩
  · rw [frame_ofTokenLine, h.start]
    exact here.charted_stop
  · have advances := Everywhere.row kept_advances (Row.ofTokenLine l)
    obtain ⟨before, split, -, stop⟩ := here.stop
    rw [← h.rest, TokenLine.source, List.append_assoc, ← List.append_assoc before] at split
    have offset : p.token.stop.offset = byteLength before := by
      rw [stop, Location.offset_origin_through]
    have line : l.stop.start.line = p.token.stop.line :=
      h.line_of_mem l.stop (List.mem_append_right _ (List.mem_singleton_self _))
    rw [nodes_ofTokenLine] at advances ⊢
    have front := (fill_front h).charted split offset advances.left
      (h.passes.unbroken h.inLine.inner) line here.charted_stop
    exact front.append (Everywhere.node (tokens l.stop (by simp)) Everywhere.nil)
  · rw [frame_ofTokenLine]
    intro d hd
    obtain ⟨t, ht, message, args, -, rfl⟩ := Reader.reports_content l.stop l.body d hd
    refine (tokens t ?_).ofExtent message args
    rw [TokenLine.front, List.append_assoc]
    exact List.mem_append_right _ ht

/-- The rows of a text are charted. -/
theorem charted_rows {text : List Char} : ∀ r ∈ Row.ofText text, r.Charted text := by
  obtain ⟨f, reads, -⟩ := Scanner.reads_ofText text
  obtain ⟨-, lines⟩ := reads.stands (Scanner.stands_start text)
  intro r hr
  obtain ⟨l, hl, rfl⟩ := List.mem_map.mp hr
  obtain ⟨p, e, line, here⟩ := lines l hl
  exact charted_row line here

/-! ## 6. Files -/

/-- Both ends of a node are charted. -/
def Label.Charted (text : List Char) (l : Label) : Prop :=
  l.extent.start.Charted text ∧ l.extent.stop.Charted text

section
variable {text : List Char} {ts : List Node}

/-- A composite node stops where the last of its parts does. -/
theorem charted_compose {start : Location} (first : start.Charted text)
    (h : Everywhere (Label.Charted text) ts) (kind : Kind) (level : Option Nat) :
    Everywhere (Label.Charted text) [Node.compose kind start ts level] := by
  refine Everywhere.node ⟨first, ?_⟩ h
  show ((ts.getLast?.map (·.label.extent.stop)).getD start).Charted text
  cases last : ts.getLast? with
  | none => exact first
  | some t =>
    exact (h.root (List.mem_of_getLast? last)).2

/-- Nesting puts lines under others, and takes no place that was not in one of them. -/
theorem charted_nodesOf (ls : List Line) (rows : ∀ l ∈ Line.withinAll ls, l.row.Charted text) :
    Everywhere (Label.Charted text) (Line.nodesOf ls) := by
  match ls with
  | [] => exact Everywhere.nil
  | .simple f b :: ls =>
    rw [Line.withinAll, Line.within, List.forall_mem_append, List.forall_mem_singleton] at rows
    have own : Everywhere (Label.Charted text) (f.around b.nodes) :=
      rows.1.nodes.mono fun _ h => ⟨h.start, h.stop⟩
    rw [Line.nodesOf, Line.node]
    exact (charted_compose rows.1.start own b.kind _).cons (charted_nodesOf ls rows.2)
  | .element f t inner :: ls =>
    rw [Line.withinAll, Line.within, List.forall_mem_append, List.forall_mem_cons] at rows
    have own : Everywhere (Label.Charted text) (f.around [t.node]) :=
      rows.1.1.nodes.mono fun _ h => ⟨h.start, h.stop⟩
    have under := charted_nodesOf inner rows.1.2
    rw [Line.nodesOf, Line.node]
    exact (charted_compose rows.1.1.start (own.append under) .element _).cons
      (charted_nodesOf ls rows.2)
termination_by sizeOf ls

theorem Row.Charted.indent {r : Row} (h : r.Charted text) :
    ∀ i ∈ r.frame.indent, i.extent.Charted text := by
  intro i hi
  refine h.nodes.root (t := i.node .part) ?_
  have : i.node .part ∈ r.frame.indent.toList.map (·.node .part) :=
    List.mem_map_of_mem (Option.mem_toList.mpr hi)
  cases r <;> exact List.mem_append_left _ (List.mem_append_left _ this)

theorem Row.Charted.tag {f : Frame} {t : Tag} (h : (Row.element f t).Charted text) :
    t.node.label.extent.Charted text :=
  h.nodes.root (List.mem_append_left _ (List.mem_append_right _ List.mem_cons_self))

/-- A warning about the indentation of a line shows the indentation, and the element that the line
is nested in. -/
theorem charted_misplaced {level : Nat} {owner : Option Tag} {l : Line}
    (element : ∀ t ∈ owner, t.node.label.extent.Charted text) (row : l.row.Charted text) :
    ∀ d ∈ Line.misplaced level owner l, d.Charted text := by
  intro d hd
  rw [Line.misplaced] at hd
  cases found : l.frame.indent with
  | none => rw [found] at hd; exact absurd hd (by simp)
  | some indent =>
    have place := row.indent indent (by rw [frame_row]; exact found)
    rw [found] at hd
    dsimp only at hd
    split at hd
    · cases owner with
      | none =>
        obtain rfl := List.mem_singleton.mp hd
        exact place.ofExtent _ _
      | some t =>
        obtain rfl := List.mem_singleton.mp hd
        exact ⟨place.isPlace, List.forall_mem_singleton.mpr (element t rfl).isPlace⟩
    · exact absurd hd (by simp)

/-- The findings about nested lines are those of the grammar and the warnings. -/
theorem charted_diagnosticsOf (level : Nat) (owner : Option Tag) (ls : List Line)
    (element : ∀ t ∈ owner, t.node.label.extent.Charted text)
    (rows : ∀ l ∈ Line.withinAll ls, l.row.Charted text) :
    ∀ d ∈ Line.diagnosticsOf level owner ls, d.Charted text := by
  match ls with
  | [] => exact fun d hd => absurd hd (by simp [Line.diagnosticsOf])
  | .simple f b :: ls =>
    rw [Line.withinAll, Line.within, List.forall_mem_append, List.forall_mem_singleton] at rows
    have later := charted_diagnosticsOf level owner ls element rows.2
    rw [Line.diagnosticsOf, Line.diagnostics, List.forall_mem_append, List.forall_mem_append]
    exact ⟨⟨charted_misplaced element rows.1, rows.1.findings⟩, later⟩
  | .element f t inner :: ls =>
    rw [Line.withinAll, Line.within, List.forall_mem_append, List.forall_mem_cons] at rows
    have later := charted_diagnosticsOf level owner ls element rows.2
    have under := charted_diagnosticsOf (Line.blockLevel inner) (some t) inner
      (by rintro _ ⟨⟩; exact rows.1.1.tag) rows.1.2
    rw [Line.diagnosticsOf, Line.diagnostics, List.forall_mem_append, List.forall_mem_append,
      List.forall_mem_append]
    exact ⟨⟨⟨charted_misplaced element rows.1.1, rows.1.1.findings⟩, under⟩, later⟩
termination_by sizeOf ls

theorem charted_lines (variant : Variant) (text : List Char) :
    ∀ l ∈ Line.withinAll (SourceFile.ofText variant text).lines, l.row.Charted text := by
  intro l hl
  refine charted_rows l.row ?_
  rw [← map_row_withinAll_lines variant text]
  exact List.mem_map_of_mem hl

/-- Every node of a file starts and stops at a charted location. -/
theorem charted_root (variant : Variant) (text : List Char) :
    ∀ n ∈ (SourceFile.ofText variant text).root.subtrees, n.label.extent.Charted text := by
  have lines := charted_nodesOf _ (charted_lines variant text)
  have ending : (SourceFile.ofText variant text).endOfFile.start.Charted text := by
    obtain ⟨f, reads, stop⟩ := Scanner.reads_ofText text
    have here := (reads.stands (Scanner.stands_start text)).1
    rw [SourceFile.ofText, stop]
    exact here.start
  have leaf : Everywhere (Label.Charted text)
      [(SourceFile.ofText variant text).endOfFile.node .part] :=
    Everywhere.node ⟨ending, ending⟩ Everywhere.nil
  have whole := charted_compose (Location.charted_origin text) (lines.append leaf) .file none
  intro n hn
  have ends := whole.of_mem_subtrees hn
  exact ⟨ends.1, ends.2, ((sound_root variant text).of_mem_subtrees n hn).start_le_stop⟩

end

/-! ## 7. Documents -/

namespace Document

/-- What a document says of a location that was noted elsewhere. -/
structure Locates (d : Document) (l : Location) : Prop where
  position : d.position? l.offset = some l.position
  units : l.units = unitLength (takeBytes l.offset d.text)

/-- What a document says of an extent, from its bytes and the text they stand for. -/
structure Measures (d : Document) (e : Extent) : Prop where
  start : d.position? e.span.start = some e.start.position
  length : e.length = unitLength (sliceBytes e.span.start e.span.stop d.text)
  crossesLine : e.crossesLine = true ↔
    ∃ c ∈ sliceBytes e.span.start e.span.stop d.text, isLineBreak c = true
  column : e.crossesLine = false →
    (d.position? e.span.stop).map Position.column = some e.trailingColumn
  column_of_crossesLine : e.crossesLine = true → e.trailingColumn = e.length

/-- What a document says of a span that is shown as a region: the positions of its ends, unless
there is a break between them. -/
structure Marks (d : Document) (span : Span) (region : Region) : Prop where
  start : d.position? span.start = some region.start
  stop : Unbroken (sliceBytes span.start span.stop d.text) →
    d.position? span.stop = some region.stop
  collapsed : ¬Unbroken (sliceBytes span.start span.stop d.text) → region.stop = region.start

variable {d : Document} {l : Location} {e : Extent}

theorem locates (lines : d.lines = .ofText d.text) (h : l.Charted d.text) : d.Locates l := by
  refine ⟨?_, h.units⟩
  rw [position?, lines]
  exact h.position?

theorem measures (lines : d.lines = .ofText d.text) (h : e.Charted d.text) : d.Measures e := by
  refine ⟨(locates lines h.start).position, h.length, ?_, fun same => ?_, fun crosses => ?_⟩
  · rw [← Bool.not_eq_false, h.crossesLine, Unbroken]
    simp
  · rw [Extent.trailingColumn, same]
    exact congrArg (Option.map Position.column) (locates lines h.stop).position
  · rw [Extent.trailingColumn, if_pos crosses]

theorem marks (lines : d.lines = .ofText d.text) {span : Span} {region : Region}
    (h : IsPlace d.text span region) : d.Marks span region := by
  obtain ⟨e, charted, rfl, rfl⟩ := h
  refine ⟨(locates lines charted.start).position, fun unbroken => ?_, fun broken => ?_⟩
  · have same := charted.crossesLine.mpr unbroken
    have line : e.stop.line = e.start.line := by simpa [Extent.crossesLine] using same
    rw [Extent.region, Extent.endColumn, same, ← line]
    exact (locates lines charted.stop).position
  · have crosses : e.crossesLine = true := by
      simpa using fun same => broken (charted.crossesLine.mp same)
    rw [Extent.region, Extent.endColumn, if_pos crosses]
    rfl

end Document

/-- A document and what is noted about its text have one system of coordinates. At each token the
lexer stands where the document says; each node has the position of its first byte, the length of
its text, and the column of its last byte unless a break stands in its text; each finding and what
is related to it is shown from the position of its first byte to that of its last, or at the first if
there is a break between them. -/
theorem coordinates_agree (uri language : String) (version : Int) (text : List Char) :
    let d := Document.create uri language version text
    (∀ k, d.Locates (Scanner.scanTimes k (.start text)).token.start
        ∧ d.Locates (Scanner.scanTimes k (.start text)).token.stop)
      ∧ (∀ n ∈ d.tree.root.subtrees, d.Measures n.label.extent)
      ∧ ∀ f ∈ d.tree.diagnostics,
          d.Marks f.span f.region ∧ ∀ r ∈ f.related, d.Marks r.span r.region := by
  intro d
  have lines : d.lines = .ofText d.text := rfl
  refine ⟨fun k => ?_, fun n hn => ?_, fun f hf => ?_⟩
  · have here := (Scanner.stands_start text).scanTimes k
    exact ⟨Document.locates lines here.start, Document.locates lines here.charted_stop⟩
  · exact Document.measures lines (charted_root .html text n hn)
  · have charted := charted_diagnosticsOf 0 none _ (by simp) (charted_lines .html text) f hf
    exact ⟨Document.marks lines charted.own,
      fun r hr => Document.marks lines (charted.related r hr)⟩

end OffsideMarkup
