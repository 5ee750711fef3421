/-
OffsideMarkup.Proofs.Shift — the same syntax further down in a text.

With more lines in front of it a line is read the same, except for where everything stands. `shift`
says how: bytes, lines and units are counted on from the start of the line, and columns stay, since
lines start at column 0. It does so for a location (`Location.shift`) and from there for everything
that holds locations, part by part; texts, kinds and what is missing are left alone.

What is computed from locations is shifted with them: where a leaf stops, how far a node reaches,
what a finding shows. So it makes no difference whether a line is shifted before its nodes are made
or afterwards (`node_shift`).
-/
import OffsideMarkup.Proofs.LineTree

namespace OffsideMarkup

/-! ## 1. Places -/

/-- The location with a text in front of it that ends at `base`, where a line starts. -/
def Location.shift (l base : Location) : Location :=
  ⟨base.offset + l.offset, base.line + l.line, l.column, base.units + l.units⟩

def Position.shift (p : Position) (base : Location) : Position := ⟨base.line + p.line, p.column⟩

def Region.shift (r : Region) (base : Location) : Region := ⟨r.start.shift base, r.stop.shift base⟩

def Span.shift (s : Span) (base : Location) : Span := ⟨base.offset + s.start, base.offset + s.stop⟩

def Extent.shift (e : Extent) (base : Location) : Extent := ⟨e.start.shift base, e.stop.shift base⟩

section
variable (base : Location)

theorem Location.shift_after (l : Location) (cs : List Char) :
    (l.shift base).after cs = (l.after cs).shift base := by
  simp only [shift, after, Nat.add_assoc]

theorem Location.shift_nextLine (l : Location) :
    (l.shift base).nextLine = l.nextLine.shift base := rfl

/-- The start of a text is shifted to where the text in front of it ends. -/
theorem Location.shift_origin (h : base.column = 0) : origin.shift base = base := by
  obtain ⟨offset, line, column, units⟩ := base
  dsimp only at h
  subst h
  rfl

namespace Extent

theorem shift_length (e : Extent) : (e.shift base).length = e.length := Nat.add_sub_add_left ..

theorem shift_crossesLine (e : Extent) : (e.shift base).crossesLine = e.crossesLine := by
  show (base.line + e.stop.line != base.line + e.start.line) = (e.stop.line != e.start.line)
  rw [Bool.eq_iff_iff]
  simp

theorem shift_endColumn (e : Extent) : (e.shift base).endColumn = e.endColumn := by
  rw [endColumn, shift_crossesLine]
  rfl

theorem shift_region (e : Extent) : (e.shift base).region = e.region.shift base := by
  rw [region, shift_endColumn]
  rfl

end Extent

/-! ## 2. Findings -/

def Related.shift (r : Related) (base : Location) : Related :=
  { r with span := r.span.shift base, region := r.region.shift base }

def Diagnostic.shift (d : Diagnostic) (base : Location) : Diagnostic :=
  { d with
    span := d.span.shift base
    region := d.region.shift base
    related := d.related.map (·.shift base) }

theorem Diagnostic.ofExtent_shift (message : Message) (args : List String) (e : Extent) :
    ofExtent message args (e.shift base) = (ofExtent message args e).shift base := by
  rw [ofExtent, e.shift_region]
  rfl

/-! ## 3. Tokens and leaves -/

def Token.shift (t : Token) (base : Location) : Token := { t with start := t.start.shift base }

@[simp] theorem Token.kind_shift (t : Token) : (t.shift base).kind = t.kind := rfl

theorem Token.shift_stop (t : Token) : (t.shift base).stop = t.stop.shift base := by
  rw [stop, stop, apply_ite (Location.shift · base), ← Location.shift_nextLine,
    ← Location.shift_after]
  rfl

theorem Token.shift_extent (t : Token) : (t.shift base).extent = t.extent.shift base := by
  rw [extent, t.shift_stop]
  rfl

def Leaf.shift (l : Leaf) (base : Location) : Leaf := { l with start := l.start.shift base }

theorem Leaf.shift_stop (l : Leaf) : (l.shift base).stop = l.stop.shift base := by
  rw [stop, stop, apply_ite (Location.shift · base), ← Location.shift_nextLine,
    ← Location.shift_after]
  rfl

theorem Leaf.shift_extent (l : Leaf) : (l.shift base).extent = l.extent.shift base := by
  rw [extent, l.shift_stop]
  rfl

theorem Leaf.literal_shift (here : Location) (ts : List Token) :
    literal (here.shift base) (ts.map (·.shift base)) = (literal here ts).shift base := by
  rw [literal, List.flatMap_map]
  rfl

end

/-! ## 4. Parts of lines -/

section
variable {α : Type}

/-- A leaf and what comes with it. -/
def shiftPair (item : α → α) (base : Location) (p : Leaf × α) : Leaf × α :=
  (p.1.shift base, item p.2)

def Chain.shift (c : Chain α) (item : α → α) (base : Location) : Chain α :=
  ⟨item c.head, c.tail.map (shiftPair item base)⟩

end

def Mustache.shift (m : Mustache) (base : Location) : Mustache :=
  ⟨m.opening.shift base, m.path.shift (·.shift base) base,
    m.fallback.map (shiftPair (·.shift base) base), m.closing.shift base⟩

def TemplatePart.shift (p : TemplatePart) (base : Location) : TemplatePart :=
  match p with
  | .literal text => .literal (text.shift base)
  | .mustache hole => .mustache (hole.shift base)

def Template.shift (t : Template) (base : Location) : Template :=
  ⟨t.start.shift base, t.parts.map (·.shift base)⟩

def Value.shift (v : Value) (base : Location) : Value :=
  match v with
  | .mustache hole => .mustache (hole.shift base)
  | .template text => .template (text.shift base)

def Tag.shift (t : Tag) (base : Location) : Tag :=
  ⟨t.sigil.shift base, t.name.shift base,
    t.classes.map (shiftPair (fun c => c.shift (·.shift base) base) base),
    t.reference.map (shiftPair (·.shift base) base)⟩

def Attribute.shift (a : Attribute) (base : Location) : Attribute :=
  ⟨a.sigil.shift base, a.binding.shift base, a.trigger.map (shiftPair (·.shift base) base),
    a.value.map (shiftPair (·.shift base) base)⟩

def Handler.shift (h : Handler) (base : Location) : Handler :=
  ⟨h.sigil.shift base, h.event.shift base,
    h.modifiers.map (shiftPair (fun c => c.shift (·.shift base) base) base),
    h.equals.shift base, h.action.shift base, h.parameter.map (shiftPair (·.shift base) base)⟩

def Body.shift (b : Body) (base : Location) : Body :=
  match b with
  | .comment words => .comment (words.map (·.shift base))
  | .attribute a => .attribute (a.shift base)
  | .handler h => .handler (h.shift base)
  | .text sigil content => .text (sigil.shift base) (content.shift base)
  | .mountingPoint sigil name => .mountingPoint (sigil.shift base) (name.shift base)

def Frame.shift (f : Frame) (base : Location) : Frame :=
  ⟨f.start.shift base, f.indent.map (·.shift base), f.endOfLine.shift base,
    f.findings.map (·.shift base)⟩

def Row.shift (r : Row) (base : Location) : Row :=
  match r with
  | .simple f b => .simple (f.shift base) (b.shift base)
  | .element f t => .element (f.shift base) (t.shift base)

theorem Frame.shift_level (f : Frame) (base : Location) : (f.shift base).level = f.level := by
  rw [level, level]
  show (f.indent.map (·.shift base)).elim 0 _ = _
  cases f.indent with
  | none => rfl
  | some i =>
    show (i.shift base).extent.length = i.extent.length
    rw [i.shift_extent, Extent.shift_length]

/-! ## 5. Nodes -/

def Label.shift (l : Label) (base : Location) : Label := { l with extent := l.extent.shift base }

mutual
/-- A tree with all its places shifted. -/
def Node.shift (base : Location) : Node → Node
  | .node l ts => .node (l.shift base) (Node.shiftAll base ts)

def Node.shiftAll (base : Location) : List Node → List Node
  | [] => []
  | t :: ts => Node.shift base t :: Node.shiftAll base ts
end

section
variable (base : Location)

theorem Node.shiftAll_eq_map (ts : List Node) : shiftAll base ts = ts.map (shift base) := by
  induction ts with
  | nil => rfl
  | cons t ts ih => rw [shiftAll, ih, List.map_cons]

theorem Node.shift_label (t : Node) : (shift base t).label = t.label.shift base := by
  cases t
  rfl

theorem Leaf.node_shift (l : Leaf) (role : Role) :
    (l.shift base).node role = Node.shift base (l.node role) := by
  rw [node, l.shift_extent]
  rfl

/-- A node stops where the last of its parts does, before the shift as well as after it. -/
theorem Node.compose_shift (kind : Kind) (start : Location) (ts : List Node) (level : Option Nat) :
    compose kind (start.shift base) (ts.map (shift base)) level
      = shift base (compose kind start ts level) := by
  have stop : (((ts.map (shift base)).getLast?.map (·.label.extent.stop)).getD (start.shift base))
      = ((ts.getLast?.map (·.label.extent.stop)).getD start).shift base := by
    rw [List.getLast?_map]
    cases ts.getLast? with
    | none => rfl
    | some t =>
      show (shift base t).label.extent.stop = t.label.extent.stop.shift base
      rw [shift_label]
      rfl
  rw [compose, compose, shift, shiftAll_eq_map, stop]
  rfl

theorem pairNodes_shift {α : Type} {first : Leaf → Node} {second : α → Node} {item : α → α}
    (h : ∀ l : Leaf, first (l.shift base) = Node.shift base (first l))
    (h' : ∀ a, second (item a) = Node.shift base (second a)) (p : Option (Leaf × α)) :
    pairNodes first second (p.map (shiftPair item base))
      = (pairNodes first second p).map (Node.shift base) := by
  cases p with
  | none => rfl
  | some p =>
    show [first (p.1.shift base), second (item p.2)] = _
    rw [h, h']
    rfl

theorem Chain.node_shift {α : Type} (view : α → Node) {item : α → α}
    (h : ∀ a, view (item a) = Node.shift base (view a)) (c : Chain α) (role : Role) :
    (c.shift item base).node role view = Node.shift base (c.node role view) := by
  have parts : (c.shift item base).nodes role view = (c.nodes role view).map (Node.shift base) := by
    rw [nodes, nodes, List.map_cons, List.map_flatMap]
    show view (item c.head) :: (c.tail.map (shiftPair item base)).flatMap _ = _
    rw [h, List.flatMap_map]
    congr 2
    funext p
    show [(p.1.shift base).node role, view (item p.2)] = _
    rw [Leaf.node_shift, h]
    rfl
  rw [node, node, ← Node.compose_shift, ← parts]
  congr 1
  show (view (item c.head)).label.extent.start = _
  rw [h, Node.shift_label]
  rfl

theorem Mustache.node_shift (m : Mustache) : (m.shift base).node = Node.shift base m.node := by
  have leaf := fun l : Leaf => Leaf.node_shift base l .part
  have fallback : pairNodes (·.node .part) (·.node .part) (m.shift base).fallback = _ :=
    pairNodes_shift base leaf leaf m.fallback
  have path : (m.shift base).path.node .part (·.node .part) = _ :=
    Chain.node_shift base (fun l : Leaf => l.node .part) leaf m.path .part
  rw [node, node, ← Node.compose_shift]
  simp only [List.map_append, List.map_cons, List.map_nil, ← Leaf.node_shift, ← path, ← fallback]
  rfl

theorem Template.node_shift (t : Template) : (t.shift base).node = Node.shift base t.node := by
  have part : ∀ p : TemplatePart, (p.shift base).node = Node.shift base p.node := by
    intro p
    cases p with
    | literal text => exact Leaf.node_shift base text .part
    | mustache hole => exact hole.node_shift base
  rw [node, node, ← Node.compose_shift, List.map_map]
  show Node.compose .template _ ((t.parts.map (·.shift base)).map TemplatePart.node) none = _
  rw [List.map_map]
  congr 2
  funext p
  exact part p

theorem Value.node_shift (v : Value) : (v.shift base).node = Node.shift base v.node := by
  cases v with
  | mustache hole => exact hole.node_shift base
  | template text => exact text.node_shift base

theorem Tag.node_shift (t : Tag) : (t.shift base).node = Node.shift base t.node := by
  have leaf := fun l : Leaf => Leaf.node_shift base l .part
  have classes : pairNodes (·.node .part) (·.node .part Template.node) (t.shift base).classes = _ :=
    pairNodes_shift base leaf (fun c => Chain.node_shift base _ (Template.node_shift base) c .part)
      t.classes
  have reference : pairNodes (·.node .part) (·.node .part) (t.shift base).reference = _ :=
    pairNodes_shift base leaf leaf t.reference
  rw [node, node, ← Node.compose_shift]
  simp only [List.map_append, List.map_cons, List.map_nil, ← Leaf.node_shift, ← classes,
    ← reference]
  rfl

theorem Body.nodes_shift (b : Body) : (b.shift base).nodes = b.nodes.map (Node.shift base) := by
  have leaf := fun (role : Role) (l : Leaf) => Leaf.node_shift base l role
  match b with
  | .comment none => rfl
  | .comment (some l) => exact congrArg ([·]) (leaf .part l)
  | .attribute a =>
    have trigger : pairNodes (·.node .trigger) (·.node .trigger) (a.shift base).trigger = _ :=
      pairNodes_shift base (leaf .trigger) (leaf .trigger) a.trigger
    have value : pairNodes (·.node .part) Value.node (a.shift base).value = _ :=
      pairNodes_shift base (leaf .part) (Value.node_shift base) a.value
    rw [nodes]
    simp only [List.map_append, List.map_cons, List.map_nil, ← Leaf.node_shift, ← trigger, ← value]
    rfl
  | .handler h =>
    have modifiers : pairNodes (·.node .modifier) (·.node .modifier (·.node .modifier))
        (h.shift base).modifiers = _ :=
      pairNodes_shift base (leaf .modifier)
        (fun c => Chain.node_shift base _ (leaf .modifier) c .modifier) h.modifiers
    have parameter : pairNodes (·.node .part) Template.node (h.shift base).parameter = _ :=
      pairNodes_shift base (leaf .part) (Template.node_shift base) h.parameter
    rw [nodes]
    simp only [List.map_append, List.map_cons, List.map_nil, ← Leaf.node_shift, ← modifiers,
      ← parameter]
    rfl
  | .text sigil content =>
    rw [nodes, List.map_cons, List.map_singleton, ← leaf, ← Template.node_shift]
    rfl
  | .mountingPoint sigil name =>
    rw [nodes, List.map_cons, List.map_singleton, ← leaf, ← leaf]
    rfl

theorem Frame.around_shift (f : Frame) (ts : List Node) :
    (f.shift base).around (ts.map (Node.shift base)) = (f.around ts).map (Node.shift base) := by
  rw [around, around, List.map_append, List.map_append, List.map_singleton, ← Leaf.node_shift]
  congr 2
  show ((f.indent.map (·.shift base)).toList.map _) = _
  cases f.indent with
  | none => rfl
  | some l => exact congrArg ([·]) (Leaf.node_shift base l .part)

theorem Row.nodes_shift (r : Row) : (r.shift base).nodes = r.nodes.map (Node.shift base) := by
  cases r with
  | simple f b =>
    show (f.shift base).around (b.shift base).nodes = _
    rw [b.nodes_shift, f.around_shift]
    rfl
  | element f t =>
    show (f.shift base).around [(t.shift base).node] = _
    rw [t.node_shift, ← List.map_singleton, f.around_shift]
    rfl

end

/-! ## 6. Lines without the lines in them -/

def Row.kind : Row → Kind
  | .simple _ b => b.kind
  | .element _ _ => .element

/-- The node of a row by itself: it ends with the token that ends the line. -/
def Row.node (r : Row) : Node := .compose r.kind r.frame.start r.nodes (some r.level)

/-- A node without the lines under it. It stops where what is left of it does. -/
def Node.withoutLines (n : Node) : Node :=
  let own := n.children.filter fun c => !c.label.isLine
  let start := n.label.extent.start
  let stop := (own.getLast?.map (·.label.extent.stop)).getD start
  .node { n.label with extent := ⟨start, stop⟩ } own

theorem Node.withoutLines_compose (kind : Kind) (start : Location) (ts : List Node)
    (level : Option Nat) :
    (compose kind start ts level).withoutLines
      = compose kind start (ts.filter fun c => !c.label.isLine) level := rfl

theorem Row.node_shift (r : Row) (base : Location) :
    (r.shift base).node = Node.shift base r.node := by
  have level : (r.shift base).level = r.level := by cases r <;> exact Frame.shift_level ..
  rw [node, node, level, r.nodes_shift, ← Node.compose_shift]
  cases r with
  | simple f b => cases b <;> rfl
  | element f t => rfl

theorem Lineless.filter {ts : List Node} (h : Lineless ts) :
    ts.filter (fun c => !c.label.isLine) = ts := by
  refine List.filter_eq_self.mpr fun c hc => ?_
  rw [Everywhere.root h hc]
  rfl

theorem Line.isLine_node (l : Line) : l.node.label.isLine = true := by
  cases l with
  | simple f b => rw [node]; exact b.isLine_kind
  | element f t ls => rw [node]; rfl

/-- Without the lines nested in it, the node of a line is that of its row. -/
theorem Line.withoutLines_node (l : Line) : l.node.withoutLines = l.row.node := by
  cases l with
  | simple f b =>
    rw [node, Node.withoutLines_compose, ((Lineless.body b).around f).filter]
    rfl
  | element f t ls =>
    have own := ((Lineless.tag t).around f).filter
    have nested : (nodesOf ls).filter (fun c => !c.label.isLine) = [] := by
      refine List.filter_eq_nil_iff.mpr fun c hc => ?_
      rw [nodesOf_eq_map] at hc
      obtain ⟨m, -, rfl⟩ := List.mem_map.mp hc
      rw [m.isLine_node]
      exact Bool.false_ne_true
    rw [node, Node.withoutLines_compose, List.filter_append, own, nested, List.append_nil]
    rfl

end OffsideMarkup
