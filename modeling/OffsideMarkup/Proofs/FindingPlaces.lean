/-
OffsideMarkup.Proofs.FindingPlaces — where findings point, and in which order they come.

A finding is about a token of its line: what stands where something else was expected, the end of
the line, or, for a warning, the indentation. A warning also points at the tag of the element that
the line stands under. All of these are pieces of one line.

* `LiesOn` — a piece of a line, in bytes and in columns. There are two cases: a piece without a
  break, or the token that ends the line, with the space in front of the break. Editors are shown
  nothing of the latter but where it starts.
* `liesOn_front`, `liesOn_node` — the tokens of a line and the nodes of its content lie on it.
* `sorted_findings` — the findings of a line come in the order of its tokens. What is found stands
  where a leaf is missing (`Reader.Account`), and leaves come in the order of the text.
* `diagnostics_eq` — the findings about a file are those of its lines, one line after the other, and
  a line lies in front of the next (`LiesOn.start_le`).
-/
import OffsideMarkup.Proofs.BuilderTotal
import OffsideMarkup.Proofs.HighlightCover
import OffsideMarkup.Proofs.LineOrder

namespace OffsideMarkup

/-! ## 1. Pieces of a line -/

/-- A span and a region are one piece of the line with this number: between two characters of it,
with no break in between, or else the token that ends the line with a break. -/
inductive LiesOn (text : List Char) (k : Nat) (span : Span) (region : Region) : Prop
  | inside {front piece back : List Char}
      (line : (physicalLines text)[k]? = some (front ++ piece ++ back))
      (unbroken : Unbroken piece)
      (bytes : span = ⟨(lineStart text k).offset + byteLength front,
        (lineStart text k).offset + byteLength (front ++ piece)⟩)
      (columns : region = ⟨⟨k, unitLength front⟩, ⟨k, unitLength (front ++ piece)⟩⟩)
  | atBreak {front : List Char} {t : Token}
      (line : (physicalLines text)[k]? = some (front ++ t.source))
      (token : t ∈ tokens text) (kind : t.kind = .lineBreak)
      (space : ∀ c ∈ t.trivia, isInlineSpace c = true) (brk : IsBreak t.lexeme [])
      (bytes : span = ⟨(lineStart text k).offset + byteLength front,
        (lineStart text k).offset + byteLength (front ++ t.source)⟩)
      (columns : region = ⟨⟨k, unitLength front⟩, ⟨k, unitLength front⟩⟩)

/-- What is to be said of a place of a text: it is cut out between characters, lies on one line and
does not end in front of where it starts. -/
structure WellPlaced (text : List Char) (span : Span) (region : Region) : Prop where
  cut : ∃ before piece after, text = before ++ piece ++ after
    ∧ span = ⟨byteLength before, byteLength (before ++ piece)⟩
  line : LiesOn text region.start.line span region
  oneLine : region.stop.line = region.start.line
  columns : region.start.column ≤ region.stop.column

section

variable {text : List Char} {k : Nat} {span : Span} {region : Region}

/-- A text is what stands before a line, the line, and what comes behind it. -/
theorem exists_split_at {line : List Char} (at_k : (physicalLines text)[k]? = some line) :
    ∃ before after, text = before ++ line ++ after
      ∧ (lineStart text k).offset = byteLength before := by
  obtain ⟨h, rfl⟩ := List.getElem?_eq_some_iff.mp at_k
  refine ⟨((physicalLines text).take k).flatten, ((physicalLines text).drop (k + 1)).flatten, ?_,
    rfl⟩
  conv_lhs => rw [← flatten_physicalLines text, ← List.take_append_drop k (physicalLines text),
    List.drop_eq_getElem_cons h]
  rw [List.flatten_append, List.flatten_cons, List.append_assoc]

/-- What stands before a line is in front of what comes behind it. -/
theorem lineStart_le {i j : Nat} {line : List Char} (at_i : (physicalLines text)[i]? = some line)
    (less : i < j) :
    (lineStart text i).offset + byteLength line ≤ (lineStart text j).offset := by
  have front : (physicalLines text).take (i + 1) = (physicalLines text).take i ++ [line] := by
    rw [List.take_add_one, at_i]
    rfl
  obtain ⟨more, split⟩ : (physicalLines text).take (i + 1) <+: (physicalLines text).take j :=
    List.take_prefix_take_left (by omega)
  show byteLength _ + _ ≤ byteLength _
  rw [← split, front, List.flatten_append, List.flatten_append, List.flatten_singleton,
    byteLength_append, byteLength_append]
  exact Nat.le_add_right ..

namespace LiesOn

theorem wellPlaced (h : LiesOn text k span region) :
    WellPlaced text span region ∧ region.start.line = k := by
  have cut : ∀ {front piece back : List Char},
      (physicalLines text)[k]? = some (front ++ piece ++ back) →
      ∃ before piece' after, text = before ++ piece' ++ after
        ∧ (⟨(lineStart text k).offset + byteLength front,
            (lineStart text k).offset + byteLength (front ++ piece)⟩ : Span)
          = ⟨byteLength before, byteLength (before ++ piece')⟩ := by
    intro front piece back line
    obtain ⟨before, after, split, offset⟩ := exists_split_at line
    refine ⟨before ++ front, piece, back ++ after, ?_, ?_⟩
    · rw [split]
      simp only [List.append_assoc]
    · simp only [offset, byteLength_append, Nat.add_assoc]
  cases h with
  | inside line unbroken bytes columns =>
    subst bytes columns
    refine ⟨⟨cut line, .inside line unbroken rfl rfl, rfl, ?_⟩, rfl⟩
    rw [unitLength_append]
    exact Nat.le_add_right ..
  | @atBreak front t line token kind space brk bytes columns =>
    subst bytes columns
    have line' : (physicalLines text)[k]? = some (front ++ t.source ++ []) := by
      rw [line, List.append_nil]
    exact ⟨⟨cut line', .atBreak line token kind space brk rfl rfl, rfl, Nat.le_refl _⟩, rfl⟩

/-- A piece of a line starts between the two ends of the line. -/
theorem exists_start (h : LiesOn text k span region) :
    ∃ line, (physicalLines text)[k]? = some line ∧ (lineStart text k).offset ≤ span.start
      ∧ span.start ≤ (lineStart text k).offset + byteLength line := by
  cases h with
  | inside line _ bytes =>
    subst bytes
    refine ⟨_, line, Nat.le_add_right .., ?_⟩
    simp only [byteLength_append]
    omega
  | atBreak line _ _ _ _ bytes =>
    subst bytes
    refine ⟨_, line, Nat.le_add_right .., ?_⟩
    simp only [byteLength_append]
    omega

/-- What lies on a line starts in front of what lies on a later one. -/
theorem start_le {i j : Nat} {span' : Span} {region' : Region} (h : LiesOn text i span region)
    (h' : LiesOn text j span' region') (less : i < j) : span.start ≤ span'.start := by
  obtain ⟨line, at_i, -, upper⟩ := h.exists_start
  obtain ⟨-, -, lower, -⟩ := h'.exists_start
  exact upper.trans ((lineStart_le at_i less).trans lower)

/-- An extent that some text of the line leads to, and some text without a break through. -/
theorem of_extent {front piece back : List Char} {e : Extent}
    (line : (physicalLines text)[k]? = some (front ++ piece ++ back)) (unbroken : Unbroken piece)
    (start : e.start = (lineStart text k).after front) (stop : e.stop = e.start.after piece) :
    LiesOn text k e.span e.region := by
  have column : (lineStart text k).column = 0 := rfl
  have whole : e.stop = (lineStart text k).after (front ++ piece) := by
    rw [stop, start, Location.after_append]
  have straight : e.crossesLine = false := by
    rw [Extent.crossesLine, whole, start]
    exact bne_self_eq_false _
  refine .inside line unbroken ?_ ?_
  · rw [Extent.span, start, whole]
    rfl
  · rw [Extent.region, Extent.endColumn, straight, if_neg Bool.false_ne_true, start, whole]
    simp only [Location.position, Location.after, column, Nat.zero_add]
    rfl

end LiesOn

end

/-! ## 2. What stands on a line -/

/-- The token that ends a line is a token of the text. -/
theorem stop_mem_of_split {before ts : List Token} {l : TokenLine}
    (h : l ∈ TokenLine.split before ts) : l.stop ∈ ts := by
  induction ts generalizing before with
  | nil => exact absurd h (by simp [TokenLine.split])
  | cons t ts ih =>
    rw [TokenLine.split] at h
    split at h
    · rcases List.mem_cons.mp h with rfl | h
      · rw [TokenLine.stop_ofTokens]
        exact List.mem_cons_self
      · exact List.mem_cons_of_mem _ (ih h)
    · split at h
      · split at h
        · exact absurd h (by simp)
        · rw [List.mem_singleton.mp h, TokenLine.stop_ofTokens]
          exact List.mem_cons_self
      · exact List.mem_cons_of_mem _ (ih h)

/-- Among tiles, the text of those in front leads to each of them. -/
theorem Node.Tile.exists_front {a b : Location} {ts : List Node} (h : Node.Tile a b ts)
    (each : ∀ t ∈ ts, Node.Straight t) :
    ∀ t ∈ ts, ∃ front back, ts = front ++ t :: back
      ∧ t.label.extent.start = a.after (front.flatMap Node.source) := by
  intro t ht
  obtain ⟨front, back, rfl⟩ := List.append_of_mem ht
  obtain ⟨m, before, start, -⟩ := Node.tile_append.mp h
  refine ⟨front, back, rfl, ?_⟩
  rw [start, (before.abreast fun u hu => each u (List.mem_append_left _ hu)).2]

section

variable {text : List Char} {k : Nat} {l : TokenLine}
  (at_k : (TokenLine.ofText text)[k]? = some l)

include at_k

/-- The tokens of a line in front of another one lead to it, from the start of the line on. -/
theorem after_front {front rest : List Token} (split : l.front = front ++ rest) :
    (lineStart text k).after (front.flatMap Token.source) = nextStart l.stop rest := by
  obtain ⟨q, e, line, here⟩ := exists_readsLine at_k
  have place := InLine.nextStart_append (split ▸ line.inLine)
  rwa [← split, ← l.start_eq_nextStart, line.start, here] at place

/-- A token inside a line lies on it. -/
theorem liesOn_front : ∀ t ∈ l.front, LiesOn text k t.extent.span t.extent.region := by
  obtain ⟨q, e, line, -⟩ := exists_readsLine at_k
  intro t ht
  obtain ⟨front, back, split⟩ := List.append_of_mem ht
  have inside := (Kind.ne_of_endsLine_eq_false (line.inLine.inner t ht)).1
  have unbroken := line.passes.unbroken line.inLine.inner
  have whole : (physicalLines text)[k]? = some (front.flatMap Token.source ++ t.source
      ++ (back.flatMap Token.source ++ l.stop.source)) := by
    rw [physicalLine_of_tokenLine at_k, TokenLine.source, split]
    simp only [List.flatMap_append, List.flatMap_cons, List.append_assoc]
  rw [split, List.flatMap_append, List.flatMap_cons] at unbroken
  exact .of_extent whole (unbroken_append.mp (unbroken_append.mp unbroken).2).1
    (after_front at_k split).symm (if_neg inside)

/-- So does the token that ends it. -/
theorem liesOn_stop : LiesOn text k l.stop.extent.span l.stop.extent.region := by
  obtain ⟨q, e, line, -⟩ := exists_readsLine at_k
  have whole := physicalLine_of_tokenLine at_k
  have start : (lineStart text k).after (l.front.flatMap Token.source) = l.stop.start :=
    after_front at_k (List.append_nil _).symm
  obtain ⟨space, ⟨kind, brk⟩ | ⟨atEnd, none, -⟩⟩ := line.stop_cases
  · have token : l.stop ∈ tokens text := stop_mem_of_split (List.mem_of_getElem? at_k)
    have stop : l.stop.stop = (l.stop.start.after l.stop.source).nextLine := if_pos kind
    refine .atBreak whole token kind space brk.alone ?_ ?_
    · rw [Token.extent, Extent.span, stop, ← start, ← Location.after_append]
      rfl
    · have crosses : l.stop.extent.crossesLine = true := by
        rw [Extent.crossesLine, Token.extent, stop]
        exact bne_iff_ne.mpr (Nat.succ_ne_self _)
      rw [Extent.region, Extent.endColumn, crosses, if_pos rfl, Token.extent, ← start]
      simp only [Location.position, Location.after, lineStart, Nat.zero_add]
  · have last : (physicalLines text)[k]?
        = some (l.front.flatMap Token.source ++ l.stop.source ++ []) := by
      rw [whole, TokenLine.source, List.append_nil]
    refine .of_extent last ?_ start.symm (if_neg (by rw [atEnd]; decide))
    rw [Token.source, none, List.append_nil]
    exact unbroken_of_inlineSpace space

/-- What is reported of a line lies on it. -/
theorem liesOn_finding {d : Diagnostic} (hd : d ∈ (Row.ofTokenLine l).frame.findings) :
    LiesOn text k d.span d.region ∧ d.related = [] := by
  rw [frame_ofTokenLine] at hd
  obtain ⟨t, ht, message, args, -, rfl⟩ := Reader.reports_content l.stop l.body d hd
  refine ⟨?_, rfl⟩
  rcases List.mem_append.mp ht with inner | ending
  · exact liesOn_front at_k t (List.mem_append_right _ inner)
  · obtain rfl := List.mem_singleton.mp ending
    exact liesOn_stop at_k

/-- The nodes of the content of a line lie on it. -/
theorem liesOn_node : ∀ n ∈ (Reader.content l.stop l.body).value.nodes,
    LiesOn text k n.label.extent.span n.label.extent.region := by
  obtain ⟨q, e, line, here⟩ := exists_readsLine at_k
  have straight := straight_nodesInFront line
  have fill : Node.Fill _ _ _ l.nodesInFront := fill_front line
  have unbroken := line.passes.unbroken line.inLine.inner
  intro n hn
  have hn : n ∈ l.nodesInFront := List.mem_append_right _ hn
  obtain ⟨front, back, split, start⟩ := Node.Tile.exists_front fill.tile straight n hn
  have source : l.front.flatMap Token.source
      = front.flatMap Node.source ++ (Node.source n ++ back.flatMap Node.source) := by
    rw [← fill.source, split, List.flatMap_append, List.flatMap_cons]
  have whole : (physicalLines text)[k]? = some (front.flatMap Node.source ++ Node.source n
      ++ (back.flatMap Node.source ++ l.stop.source)) := by
    rw [physicalLine_of_tokenLine at_k, TokenLine.source, source]
    simp only [List.append_assoc]
  rw [source] at unbroken
  exact .of_extent whole (unbroken_append.mp (unbroken_append.mp unbroken).2).1 (here ▸ start)
    (straight n hn).stop

end

/-! ## 3. The order on a line -/

/-- Leaves side by side start one behind the other. -/
theorem Abreast.pairwise_start {here : Location} {ls : List Leaf} (h : Abreast here ls) :
    (∀ l ∈ ls, here.offset ≤ l.start.offset)
      ∧ ls.Pairwise fun a b => a.start.offset ≤ b.start.offset := by
  induction ls generalizing here with
  | nil => exact ⟨by simp, .nil⟩
  | cons l ls ih =>
    obtain ⟨rfl, later⟩ := h
    obtain ⟨behind, order⟩ := ih later
    have further : ∀ m ∈ ls, l.start.offset ≤ m.start.offset := fun m hm =>
      (Nat.le_add_right ..).trans (behind m hm)
    exact ⟨List.forall_mem_cons.mpr ⟨Nat.le_refl _, further⟩, .cons further order⟩

/-- Findings start where leaves are missing, in the same order. -/
theorem account_starts :
    Reader.Account fun _ ds ts => ds.map (·.span.start)
      = ((leavesOf ts).filter (·.missing)).map (·.start.offset) where
  nil _ := rfl
  append h h' := by
    rw [List.map_append, h, h', leavesOf_append, List.filter_append, List.map_append]
  compose h _ _ _ := by
    rw [leavesOf_compose, h]
  present there _ _ _ := by
    rw [leavesOf_leaf, List.filter_cons_of_neg (by simp [there])]
    rfl
  absent gone _ := by
    intro _ _ d tells
    rw [leavesOf_leaf, List.filter_cons_of_pos (by simp [gone]), List.map_singleton, tells.1]
    rfl

/-- What is reported of a line comes in the order of the line. -/
theorem sorted_findings {text : List Char} {k : Nat} {l : TokenLine}
    (at_k : (TokenLine.ofText text)[k]? = some l) :
    (Row.ofTokenLine l).frame.findings.Pairwise fun a b => a.span.start ≤ b.span.start := by
  obtain ⟨q, e, line, -⟩ := exists_readsLine at_k
  have order := (abreast_nodesInFront line).1
  rw [leavesOf_nodesInFront, abreast_append] at order
  have order := order.2.pairwise_start.2
  have accounted := Reader.accounted_content account_starts l.stop l.body
  rw [frame_ofTokenLine]
  dsimp only
  generalize (Reader.content l.stop l.body).findings = ds at accounted ⊢
  generalize (Reader.content l.stop l.body).value = c at accounted order
  cases accounted with
  | rejected => exact List.pairwise_singleton ..
  | related readable starts =>
    rw [← List.pairwise_map (f := fun d : Diagnostic => d.span.start) (R := (· ≤ ·)), starts,
      List.pairwise_map]
    exact order.filter _

/-! ## 4. Files -/

/-- What is found on a line of a block: the warning about it, and what its own grammar says. -/
def Block.findingsOn (b : Block) (l : Line) : List Diagnostic :=
  Line.misplaced b.level (b.owner.map (·.2)) l ++ l.frame.findings

/-- The findings about nested lines are those of one line after the other. -/
theorem diagnosticsOf_eq (b : Block) (ls : List Line) :
    Line.diagnosticsOf b.level (b.owner.map (·.2)) ls
      = (Line.placedAll b ls).flatMap fun x => x.1.findingsOn x.2 := by
  match ls with
  | [] => rfl
  | .simple f body :: ls =>
    have later := diagnosticsOf_eq b ls
    rw [Line.diagnosticsOf, Line.diagnostics, later, Line.placedAll, Line.placed,
      List.flatMap_append, List.flatMap_singleton]
    rfl
  | .element f t inner :: ls =>
    have later := diagnosticsOf_eq b ls
    have under := diagnosticsOf_eq ⟨some (f, t), Line.blockLevel inner, inner⟩ inner
    rw [Line.diagnosticsOf, Line.diagnostics, later, Line.placedAll, Line.placed,
      List.flatMap_append, List.flatMap_cons, ← under]
    rfl
termination_by sizeOf ls

theorem diagnostics_eq (file : SourceFile) :
    file.diagnostics = file.placed.flatMap fun x => x.1.findingsOn x.2 :=
  diagnosticsOf_eq file.block file.lines

/-- A warning is about the indentation of the line, and points at the tag of the owner. -/
theorem place_misplaced {level : Nat} {owner : Option Tag} {l : Line} {d : Diagnostic}
    (hd : d ∈ Line.misplaced level owner l) :
    ∃ i, l.frame.indent = some i ∧ d.span = i.extent.span ∧ d.region = i.extent.region
      ∧ ∀ r ∈ d.related, ∃ tag, owner = some tag
        ∧ r.span = tag.node.label.extent.span ∧ r.region = tag.node.label.extent.region := by
  rw [Line.misplaced] at hd
  cases indent : l.frame.indent with
  | none => exact absurd (indent ▸ hd) (by simp)
  | some i =>
    rw [indent] at hd
    dsimp only at hd
    split at hd
    · cases owner with
      | none =>
        obtain rfl := List.mem_singleton.mp hd
        exact ⟨i, rfl, rfl, rfl, fun r hr => absurd hr (by simp [Diagnostic.ofExtent])⟩
      | some tag =>
        obtain rfl := List.mem_singleton.mp hd
        refine ⟨i, rfl, rfl, rfl, fun r hr => ⟨tag, rfl, ?_⟩⟩
        obtain rfl := List.mem_singleton.mp hr
        exact ⟨rfl, rfl⟩
    · exact absurd hd (by simp)

section

variable {variant : Variant} {text : List Char} {b : Block} {l : Line}

/-- The element that owns a block stands above its lines. -/
theorem exists_owner (h : (b, l) ∈ (SourceFile.ofText variant text).placed) {f : Frame} {t : Tag}
    (owner : b.owner = some (f, t)) :
    ∃ m ∈ Line.withinAll (SourceFile.ofText variant text).lines,
      m.row = .element f t ∧ m.lineNumber < l.lineNumber := by
  obtain ⟨hb, hl⟩ := (mem_placed _ b l).mp h
  rcases List.mem_cons.mp hb with rfl | hb
  · exact absurd owner (by simp [SourceFile.block])
  · obtain ⟨m, hm, block⟩ := List.mem_filterMap.mp hb
    cases m with
    | simple f body => exact absurd block (by simp [Line.block?])
    | element f' t' ls =>
      obtain rfl := Line.eq_of_block? block
      obtain ⟨rfl, rfl⟩ := Prod.mk.inj (Option.some.inj owner)
      have child : l ∈ (Line.element f' t' ls).children := hl
      exact ⟨_, hm, rfl, lineNumber_lt_of_mem_nested hm (Line.mem_withinAll child)⟩

/-- The tag of an element lies on the line of the element. -/
theorem liesOn_tag {m : Line} (hm : m ∈ Line.withinAll (SourceFile.ofText variant text).lines)
    {f : Frame} {t : Tag} (row : m.row = .element f t) :
    LiesOn text m.lineNumber t.node.label.extent.span t.node.label.extent.region := by
  obtain ⟨tl, at_k, same⟩ := exists_tokenLine hm
  rw [row, Row.ofTokenLine] at same
  refine liesOn_node at_k t.node ?_
  cases content : (Reader.content tl.stop tl.body).value with
  | simple body => rw [content] at same; exact absurd same (by simp)
  | element tag =>
    rw [content] at same
    obtain ⟨-, rfl⟩ : _ ∧ t = tag := by simpa using same
    exact List.mem_singleton_self _

/-- The indentation of a line lies on it, at its start. -/
theorem liesOn_indent (hl : l ∈ Line.withinAll (SourceFile.ofText variant text).lines) {i : Leaf}
    (indent : l.frame.indent = some i) :
    LiesOn text l.lineNumber i.extent.span i.extent.region
      ∧ i.extent.span.start = (lineStart text l.lineNumber).offset := by
  obtain ⟨tl, at_k, same⟩ := exists_tokenLine hl
  rw [← frame_row, same, frame_ofTokenLine] at indent
  obtain ⟨t, first, rfl⟩ := Option.map_eq_some_iff.mp indent
  have front : tl.front = [] ++ t :: tl.body := by rw [TokenLine.front, first]; rfl
  refine ⟨liesOn_front at_k t (by rw [front]; exact List.mem_cons_self), ?_⟩
  exact congrArg Location.offset (after_front at_k front).symm

/-- Everything that is found on a line lies on it. Where a finding points at another place, that
place lies on a line above. -/
theorem liesOn_findingsOn (h : (b, l) ∈ (SourceFile.ofText variant text).placed) :
    ∀ d ∈ b.findingsOn l, LiesOn text l.lineNumber d.span d.region
      ∧ ∀ r ∈ d.related, ∃ k < l.lineNumber, LiesOn text k r.span r.region := by
  obtain ⟨hb, mem⟩ := (mem_placed _ b l).mp h
  have hl := mem_lines_of_block hb mem
  intro d hd
  rcases List.mem_append.mp hd with warning | own
  · obtain ⟨i, indent, span, region, related⟩ := place_misplaced warning
    refine ⟨span ▸ region ▸ (liesOn_indent hl indent).1, fun r hr => ?_⟩
    obtain ⟨tag, owner, span, region⟩ := related r hr
    obtain ⟨⟨f, t⟩, owned, rfl⟩ := Option.map_eq_some_iff.mp owner
    obtain ⟨m, hm, row, above⟩ := exists_owner h owned
    exact ⟨m.lineNumber, above, span ▸ region ▸ liesOn_tag hm row⟩
  · obtain ⟨tl, at_k, same⟩ := exists_tokenLine hl
    rw [← frame_row, same] at own
    obtain ⟨lies, none⟩ := liesOn_finding at_k own
    exact ⟨lies, fun r hr => absurd (none ▸ hr) (by simp)⟩

/-- What is found on a line comes in its order, the warning in front. -/
theorem sorted_findingsOn (h : (b, l) ∈ (SourceFile.ofText variant text).placed) :
    (b.findingsOn l).Pairwise fun x y => x.span.start ≤ y.span.start := by
  obtain ⟨hb, mem⟩ := (mem_placed _ b l).mp h
  have hl := mem_lines_of_block hb mem
  obtain ⟨tl, at_k, same⟩ := exists_tokenLine hl
  have findings : l.frame.findings = (Row.ofTokenLine tl).frame.findings := by
    rw [← same, frame_row]
  have first : ∀ d ∈ Line.misplaced b.level (b.owner.map (·.2)) l,
      d.span.start = (lineStart text l.lineNumber).offset := by
    intro d hd
    obtain ⟨i, indent, span, -⟩ := place_misplaced hd
    rw [span, (liesOn_indent hl indent).2]
  refine List.pairwise_append.mpr ⟨?_, findings ▸ sorted_findings at_k, fun x hx y hy => ?_⟩
  · exact List.pairwise_of_forall_mem_list fun x hx y hy => by rw [first x hx, first y hy]
  · obtain ⟨-, -, lower, -⟩ :=
      (liesOn_findingsOn h y (List.mem_append_right _ hy)).1.exists_start
    rw [first x hx]
    exact lower

end

/-- The findings about a text come in the order of the text. Each of them, and each place that one
points at, is cut out of the text between characters and is a piece of one line: a stretch without a
break, or the token that ends the line with one. To editors it starts and ends on that line, and
does not end in front of its start. What a finding points at is on a line above it. The builder
reports the same findings. -/
theorem findings_placed (variant : Variant) (text : List Char) :
    let file := SourceFile.ofText variant text
    (file.diagnostics.Pairwise fun a b => a.span.start ≤ b.span.start)
      ∧ (∀ d ∈ file.diagnostics, WellPlaced text d.span d.region
        ∧ ∀ r ∈ d.related, WellPlaced text r.span r.region
          ∧ r.region.start.line < d.region.start.line)
      ∧ (byteLength text < wordBound → file.root.size ≤ wordBound →
        ∃ b, build text = Part.some (.ok (Node.rootAt 0 file.root, b))
          ∧ b.findings = file.diagnostics) := by
  intro file
  rw [diagnostics_eq]
  refine ⟨List.pairwise_flatMap.mpr ⟨fun x hx => sorted_findingsOn hx, ?_⟩, fun d hd => ?_,
    fun short few => ?_⟩
  · have order : file.placed.Pairwise fun x y => x.2.lineNumber < y.2.lineNumber := by
      have lines := pairwise_of_infix
        (List.infix_refl (Line.withinAll (SourceFile.ofText variant text).lines))
      rwa [← map_snd_placedAll file.block, List.pairwise_map] at lines
    refine order.imp_of_mem fun hx hy less d hd d' hd' => ?_
    exact (liesOn_findingsOn hx d hd).1.start_le (liesOn_findingsOn hy d' hd').1 less
  · obtain ⟨x, hx, hd⟩ := List.mem_flatMap.mp hd
    obtain ⟨lies, related⟩ := liesOn_findingsOn hx d hd
    obtain ⟨placed, number⟩ := lies.wellPlaced
    refine ⟨placed, fun r hr => ?_⟩
    obtain ⟨k, above, lies⟩ := related r hr
    obtain ⟨placed, other⟩ := lies.wellPlaced
    exact ⟨placed, by omega⟩
  · obtain ⟨b, built, -, findings⟩ := exists_build variant text short few
    exact ⟨b, built, findings.trans (diagnostics_eq file)⟩

end OffsideMarkup
