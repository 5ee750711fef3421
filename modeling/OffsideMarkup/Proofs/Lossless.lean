/-
OffsideMarkup.Proofs.Lossless — the tree of a file is the text of the file.

A file is read line by line, the lines are nested, and the nested lines are looked at as nodes. At
each of the three steps the nodes fill a stretch of the text, and the ends of the stretches meet:

* `fill_row` — one line, from its indentation to the token that ends it;
* `RowsFill` — lines one after the other, before they are nested;
* `fill_nest` — the same lines nested. Nesting moves no line, it only puts some lines under others,
  and what is put under an element stands behind the element's own line anyway;
* `fill_root` — the whole file, with the empty leaf at its end.

`lossless` puts together what follows for every node and for the text.
-/
import OffsideMarkup.Grammar.Offside
import OffsideMarkup.Proofs.LineShape
import OffsideMarkup.Proofs.ReaderTiling

namespace OffsideMarkup

open Node

/-! ## 1. One line -/

theorem nodes_ofTokenLine (l : TokenLine) :
    (Row.ofTokenLine l).nodes =
      (l.indent.map Leaf.ofToken).toList.map (·.node .part)
        ++ (Reader.content l.stop l.body).value.nodes ++ [(Leaf.ofToken l.stop).node .part] := by
  rw [Row.ofTokenLine]
  cases (Reader.content l.stop l.body).value <;> rfl

/-- The indentation stands in front of the content. -/
theorem covers_indent {stop : Token} {indent : Option Token} {body : List Token}
    (line : InLine stop (indent.toList ++ body)) :
    Covers stop (indent.toList ++ body) body
      ((indent.map Leaf.ofToken).toList.map (·.node .part)) := by
  cases indent with
  | none => exact Covers.nil stop body
  | some t => exact Covers.head line .part

/-- What stands on a line in front of the token that ends it fills the line up to there. -/
theorem fill_front {p e : Scanner} {l : TokenLine} (h : p.ReadsLine l e) :
    Fill p.token.stop l.stop.start (l.front.flatMap Token.source)
      ((l.indent.map Leaf.ofToken).toList.map (·.node .part)
        ++ (Reader.content l.stop l.body).value.nodes) := by
  have opening := Scanner.opens_body h.opens h.body h.inner (by rw [h.stop]; exact h.ends)
  have content := Reader.fills_content l.stop l.body h.inLine_body
  rw [Reader.content_rest opening.comment_alone] at content
  have front := ((covers_indent h.inLine).append content).whole
  rwa [← TokenLine.front, ← l.start_eq_nextStart, h.start] at front

/-- The nodes of a line fill it, from the end of the line before to its own end. -/
theorem fill_row {p e : Scanner} {l : TokenLine} (h : p.ReadsLine l e) :
    Fill p.token.stop e.token.stop l.source (Row.ofTokenLine l).nodes := by
  rw [nodes_ofTokenLine, TokenLine.source, h.stop]
  exact (fill_front h).append (fill_ofToken l.stop .part)

/-! ## 2. Lines one after the other -/

/-- Each line starts where the one before it stops, and each is filled by its nodes. -/
inductive RowsFill : Location → Location → List Char → List Row → Prop
  | nil (a : Location) : RowsFill a a [] []
  | cons {a b c : Location} {cs ds : List Char} {r : Row} {rs : List Row}
      (start : r.frame.start = a) (first : Fill a b cs r.nodes) (later : RowsFill b c ds rs) :
      RowsFill a c (cs ++ ds) (r :: rs)

theorem RowsFill.split {a c : Location} {cs : List Char} {xs ys : List Row}
    (h : RowsFill a c cs (xs ++ ys)) :
    ∃ b front back, cs = front ++ back ∧ RowsFill a b front xs ∧ RowsFill b c back ys := by
  induction xs generalizing a cs with
  | nil => exact ⟨a, [], cs, rfl, .nil a, h⟩
  | cons x xs ih =>
    cases h with
    | @cons _ b _ ds es _ _ start first later =>
      obtain ⟨m, front, back, rfl, middle, last⟩ := ih later
      exact ⟨m, ds ++ front, back, (List.append_assoc ..).symm, .cons start first middle, last⟩

/-- The lines of a text fill it. -/
theorem rowsFill_of_reads {p f : Scanner} {ls : List TokenLine} (h : p.Reads ls f) :
    RowsFill p.token.stop f.token.start p.rest (ls.map Row.ofTokenLine) := by
  induction h with
  | @done p atEnd empty =>
    rw [Scanner.rest_of_endOfText atEnd empty, Scanner.start_scan]
    exact .nil _
  | line first later ih =>
    rw [← first.rest]
    refine .cons ?_ (fill_row first) ih
    rw [frame_ofTokenLine]
    exact first.start

/-! ## 3. Nested lines -/

/-- Nesting leaves every line where it is. -/
theorem fill_nest {a b : Location} {cs : List Char} {rows : List Row} (h : RowsFill a b cs rows) :
    Fill a b cs (Line.nodesOf (Line.nest rows)) := by
  fun_induction Line.nest rows generalizing a b cs with
  | case1 =>
    cases h
    exact Fill.nil a
  | case2 f body rows ih =>
    cases h with
    | cons start first later =>
      obtain rfl : f.start = _ := start
      exact (first.compose body.kind (some f.level)).append (ih later)
  | case3 f tag rows level deeper n =>
    rename_i ihBlock ihRest
    cases h with
    | cons start first later =>
      obtain rfl : f.start = _ := start
      rw [← List.take_append_drop n rows] at later
      obtain ⟨m, front, back, rfl, block, rest⟩ := later.split
      rw [Line.nodesOf, ← List.append_assoc]
      exact ((first.append (ihBlock block)).compose .element (some f.level)).append (ihRest rest)
  | case4 f tag rows level deeper =>
    rename_i ih
    cases h with
    | cons start first later =>
      obtain rfl : f.start = _ := start
      have own := first.append (Fill.nil _)
      rw [List.append_nil] at own
      exact (own.compose .element (some f.level)).append (ih later)

/-! ## 4. The file -/

/-- The tree of a file fills the text, from its start to the end that its last leaf marks. -/
theorem fill_root (variant : Variant) (text : List Char) :
    Fill .origin (SourceFile.ofText variant text).endOfFile.start text
      [(SourceFile.ofText variant text).root] := by
  obtain ⟨f, reads, stop⟩ := Scanner.reads_ofText text
  have rows := fill_nest (rowsFill_of_reads reads)
  have here : (SourceFile.ofText variant text).endOfFile
      = ⟨.endOfText, f.token.start, [], false⟩ := by
    rw [SourceFile.ofText, stop]
    rfl
  have leaf := fill_leaf ⟨.endOfText, f.token.start, [], false⟩ (fun _ => rfl) .part
  have whole := (rows.append leaf).compose .file none
  rw [List.append_nil] at whole
  rw [SourceFile.root, here]
  exact whole

theorem sound_root (variant : Variant) (text : List Char) :
    (SourceFile.ofText variant text).root.Sound :=
  (fill_root variant text).sound _ List.mem_cons_self

theorem source_root (variant : Variant) (text : List Char) :
    Node.source (SourceFile.ofText variant text).root = text := by
  have source := (fill_root variant text).source
  rwa [List.flatMap_singleton] at source

/-- The text under a node of a file stands in the text of the file where the node says. -/
theorem placed_of_mem_subtrees {variant : Variant} {text : List Char} {n : Node}
    (h : n ∈ (SourceFile.ofText variant text).root.subtrees) : Placed text n := by
  have whole : Placed text (SourceFile.ofText variant text).root := by
    refine ⟨[], [], ?_, ?_⟩
    · rw [source_root, List.nil_append, List.append_nil]
    · rw [(fill_root variant text).tile.1]
      rfl
  exact (sound_root variant text).placed whole n h

/-- Every node of a file is the text that stands at its place. -/
theorem slice_of_mem_subtrees {variant : Variant} {text : List Char} {n : Node}
    (h : n ∈ (SourceFile.ofText variant text).root.subtrees) :
    sliceBytes n.label.extent.span.start n.label.extent.span.stop text = Node.source n :=
  ((sound_root variant text).of_mem_subtrees n h).slice (placed_of_mem_subtrees h)

/-- The text of a leaf, cut out of the whole text, is the text it keeps. -/
theorem slice_of_leaf {variant : Variant} {text : List Char} {l : Label}
    (h : l ∈ (SourceFile.ofText variant text).root.preorder) (leaf : l.isLeaf = true) :
    sliceBytes l.extent.span.start l.extent.span.stop text = l.source.getD [] := by
  rw [← Rose.map_label_subtrees, List.mem_map] at h
  obtain ⟨n, hn, rfl⟩ := h
  rw [slice_of_mem_subtrees hn]
  cases (sound_root variant text).of_mem_subtrees n hn with
  | leaf source => rw [source_node, List.flatMap_nil, List.append_nil]; rfl
  | composite source =>
    rw [Rose.label, Label.isLeaf, source] at leaf
    exact absurd leaf (by decide)

/-- Leaves alone have text, so the others can be left out when the text is put together. -/
theorem leaves_flatMap {ls : List Label} {text : Label → List Char}
    (h : ∀ l ∈ ls, l.isLeaf = true → text l = l.source.getD []) :
    (ls.filter Label.isLeaf).flatMap text = ls.flatMap fun l => l.source.getD [] := by
  induction ls with
  | nil => rfl
  | cons l ls ih =>
    have later := ih fun m hm => h m (List.mem_cons_of_mem l hm)
    cases leaf : l.isLeaf with
    | true =>
      rw [List.filter_cons_of_pos leaf, List.flatMap_cons, List.flatMap_cons, later,
        h l List.mem_cons_self leaf]
    | false =>
      have none : l.source = none := by
        rw [Label.isLeaf] at leaf
        simpa using leaf
      rw [List.filter_cons_of_neg (by simp [leaf]), List.flatMap_cons, later, none]
      rfl

/-- The tree of a file loses nothing of the text and adds nothing to it. The children of a composite
node tile it, so they lie inside it, and one without children is empty; the leaves one after the
other are the text; and what is missing is an empty leaf. -/
theorem lossless (variant : Variant) (text : List Char) :
    (∀ n ∈ (SourceFile.ofText variant text).root.subtrees,
      (n.label.isLeaf = false → Tile n.label.extent.start n.label.extent.stop n.children)
        ∧ (∀ c ∈ n.children, n.label.extent.span.start ≤ c.label.extent.span.start
            ∧ c.label.extent.span.stop ≤ n.label.extent.span.stop)
        ∧ (n.label.missing = true → n.label.isLeaf = true ∧ n.children = []
            ∧ n.label.extent.span.start = n.label.extent.span.stop))
      ∧ ((SourceFile.ofText variant text).root.preorder.filter Label.isLeaf).flatMap
          (fun l => sliceBytes l.extent.span.start l.extent.span.stop text) = text := by
  constructor
  · intro n hn
    cases (sound_root variant text).of_mem_subtrees n hn with
    | leaf source offset units missing =>
      refine ⟨fun h => ?_, by simp [Rose.children], fun h => ⟨?_, rfl, ?_⟩⟩
      · rw [Rose.label, Label.isLeaf, source] at h
        exact absurd h (by simp)
      · rw [Rose.label, Label.isLeaf, source]
        rfl
      · exact congrArg Location.offset (missing h).symm
    | @composite l ts source missing tile parts =>
      refine ⟨fun _ => tile, ?_, fun h => ?_⟩
      · exact (tile.inside fun t ht => (parts t ht).start_le_stop).2
      · rw [Rose.label, missing] at h
        exact absurd h (by decide)
  · rw [leaves_flatMap fun l hl leaf => slice_of_leaf hl leaf]
    exact source_root variant text

end OffsideMarkup
