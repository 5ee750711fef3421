/-
OffsideMarkup.Proofs.KeyHints — which modifiers are shown with the name of a key, and where.

A modifier that is the code of a key is shown with the name of the key. Codes are numbers of 32
bits, written as `WritesNumber` says.

In the tree the modifiers of a handler are the items of the chain right under the handler
(`Node.modifierSegments`). Other chains, those of classes and those of paths in a hole, stand under
something else, so a number in them is just a number. `KeyHint.Shows` says where a hint stands: in
front of the first digit or the plus sign, at the position that the document gives to that byte.
-/
import OffsideMarkup.Editor.KeyHint
import OffsideMarkup.Proofs.HandlerLine
import OffsideMarkup.Proofs.OutlineRanges
import OffsideMarkup.Proofs.StackWalk
import OffsideMarkup.Proofs.WrittenNumber

namespace OffsideMarkup

/-! ## 1. Segments -/

/-- The items of the modifier chains of a tree: those of each chain right under a handler, without
the dots between them. -/
def Node.modifierSegments (root : Node) : List Node :=
  (root.subtrees.filter (·.label.kind == .handler)).flatMap fun handler =>
    (handler.children.filter (·.label.kind == .chain)).flatMap fun chain =>
      NumberedTree.everySecond chain.children

/-- The modifiers of a line. -/
def Row.modifiers : Row → List Leaf
  | .simple _ (.handler h) => h.segments.map Prod.snd
  | _ => []

/-- The hints of nested lines are those of the modifiers of each line. -/
theorem keyHintsOf_eq (ls : List Line) :
    Line.keyHintsOf ls
      = (Line.withinAll ls).flatMap fun l => l.row.modifiers.filterMap KeyHint.ofLeaf? := by
  match ls with
  | [] => rfl
  | .simple f b :: ls =>
    have own : b.keyHints = (Row.simple f b).modifiers.filterMap KeyHint.ofLeaf? := by
      cases b with
      | handler h =>
        cases modifiers : h.modifiers <;>
          simp [Body.keyHints, Row.modifiers, Handler.segments, modifiers, Chain.items]
      | _ => rfl
    rw [Line.keyHintsOf, Line.keyHints, Line.withinAll_cons, List.flatMap_cons, keyHintsOf_eq ls,
      own]
    rfl
  | .element f t inner :: ls =>
    rw [Line.keyHintsOf, Line.keyHints, Line.withinAll_cons, List.flatMap_cons, List.flatMap_append,
      keyHintsOf_eq inner, keyHintsOf_eq ls]
    rfl
termination_by sizeOf ls

theorem mem_everySecond_mem {α : Type} {a : α} {w : List α} (h : a ∈ NumberedTree.everySecond w) :
    a ∈ w := by
  fun_induction NumberedTree.everySecond w with
  | case1 => exact h
  | case2 => exact h
  | case3 b _ rest ih =>
    rcases List.mem_cons.mp h with rfl | later
    · exact List.mem_cons_self
    · exact List.mem_cons_of_mem _ (List.mem_cons_of_mem _ (ih later))

theorem Node.mem_subtrees_of_modifierSegments {root n : Node} (h : n ∈ root.modifierSegments) :
    n ∈ root.subtrees := by
  obtain ⟨handler, hh, h⟩ := List.mem_flatMap.mp h
  obtain ⟨chain, hc, h⟩ := List.mem_flatMap.mp h
  have inTree := Rose.mem_subtrees_child (List.mem_filter.mp hh).1 (List.mem_filter.mp hc).1
  exact Rose.mem_subtrees_child inTree (mem_everySecond_mem h)

section

variable {variant : Variant} {text : List Char} {n : Node} {l : Line}

/-- A leaf is no composite node, by its kind. -/
theorem kind_of_isLeaf (hn : n ∈ (SourceFile.ofText variant text).root.subtrees)
    (leaf : n.label.isLeaf = true) : n.label.kind ≠ .chain ∧ n.label.kind ≠ .handler := by
  have mem : n.label ∈ (SourceFile.ofText variant text).root.preorder := by
    rw [← Rose.map_label_subtrees]
    exact List.mem_map_of_mem hn
  have kinds := isLeaf_of_text variant text n.label mem
  constructor <;> intro kind <;> rw [leaf, kind] at kinds <;> exact absurd kinds (by decide)

/-- The handlers of a tree are the lines that handle an event. -/
theorem filter_handler_root :
    (SourceFile.ofText variant text).root.subtrees.filter (·.label.kind == .handler)
      = ((Line.withinAll (SourceFile.ofText variant text).lines).map Line.node).filter
        (·.label.kind == .handler) := by
  rw [← filter_isLine_root, List.filter_filter]
  refine List.filter_congr fun n hn => ?_
  by_cases handler : n.label.kind = .handler
  · have inner : n.label.isLeaf = false := by
      by_contra leaf
      exact (kind_of_isLeaf hn (by simpa using leaf)).2 handler
    simp [Label.isLine, inner, handler, Kind.isLine]
  · simp [handler]

/-- Under a handler the modifiers are the only chain. -/
theorem Handler.filter_chain {f : Frame} {h : Handler}
    (leaf : ∀ c ∈ f.around (Body.handler h).nodes, c.label.isLeaf = true → c.label.kind ≠ .chain) :
    (f.around (Body.handler h).nodes).filter (·.label.kind == .chain)
      = h.modifiers.toList.map fun m => m.2.node .modifier (·.node .modifier) := by
  have split : f.around (Body.handler h).nodes
      = f.indent.toList.map (·.node .part) ++ [h.sigil.node .sigil, h.event.node .subject]
        ++ pairNodes (·.node .modifier) (·.node .modifier (·.node .modifier)) h.modifiers
        ++ (h.nodesBehind ++ [f.endOfLine.node .part]) := by
    rw [Handler.nodes_eq, Frame.around]
    simp only [List.append_assoc]
  rw [split] at leaf ⊢
  simp only [List.forall_mem_append] at leaf
  obtain ⟨⟨front, modifiers⟩, behind⟩ := leaf
  -- Beside the chain there are leaves, and the parameter, which is a template.
  have others {ts : List Node} (plain : ∀ c ∈ ts, c.label.isLeaf = true → c.label.kind ≠ .chain)
      (parts : ∀ c ∈ ts, c.label.isLeaf = true ∨ c.label.kind = .template) :
      ts.filter (·.label.kind == .chain) = [] := by
    refine List.filter_eq_nil_iff.mpr fun c hc is => ?_
    have chain : c.label.kind = .chain := by simpa using is
    rcases parts c hc with leaf | template
    · exact plain c hc leaf chain
    · exact absurd (template.symm.trans chain) (by decide)
  have isLeaf (a : Leaf) (role : Role) : (a.node role).label.isLeaf = true := rfl
  rw [List.filter_append, List.filter_append, List.filter_append,
    others front.1 (by simp [isLeaf]), others front.2 (by simp [isLeaf]),
    others (List.forall_mem_append.mpr behind) ?_]
  · cases found : h.modifiers with
    | none => rfl
    | some m =>
      rw [found, pairNodes, List.forall_mem_cons] at modifiers
      have dot : ¬((m.1.node .modifier).label.kind == .chain) = true := by
        simpa using modifiers.1 rfl
      rw [pairNodes, List.filter_cons, if_neg dot]
      rfl
  · rw [Handler.nodesBehind]
    cases h.parameter with
    | none => simp [pairNodes, isLeaf]
    | some p =>
      have template : (Template.node p.2).label.kind = .template := rfl
      simp [pairNodes, isLeaf, template]

/-- Under the node of a handler, the items of chains are the modifiers of the line. -/
theorem segments_of_line (hl : l ∈ Line.withinAll (SourceFile.ofText variant text).lines)
    (handler : l.node.label.kind = .handler) :
    (l.node.children.filter (·.label.kind == .chain)).flatMap
        (fun chain => NumberedTree.everySecond chain.children)
      = l.row.modifiers.map (·.node .modifier) := by
  have leaf : ∀ c ∈ l.node.children, c.label.isLeaf = true → c.label.kind ≠ .chain :=
    fun c hc leaf => (kind_of_isLeaf (Rose.mem_subtrees_child (node_mem_subtrees hl) hc) leaf).1
  cases l with
  | element => exact absurd handler (by simp [Line.node, Node.compose, Rose.label])
  | simple f b =>
    cases b with
    | handler h =>
      have chains := Handler.filter_chain leaf
      have own : (Line.simple f (.handler h)).node.children = f.around (Body.handler h).nodes := rfl
      rw [own, chains, Line.row, Row.modifiers, Handler.segments]
      cases h.modifiers with
      | none => rfl
      | some m =>
        have items : (m.2.node .modifier (·.node .modifier)).children
            = m.2.nodes .modifier (·.node .modifier) := rfl
        rw [Option.toList_some, List.map_singleton, List.flatMap_singleton, items, Chain.nodes,
          TreeGrammar.everySecond_cons_pairs]
        simp
    | _ => exact absurd handler (by simp [Line.node, Node.compose, Rose.label, Body.kind])

/-- The segments of a file are the modifiers of its lines. -/
theorem modifierSegments_root :
    (SourceFile.ofText variant text).root.modifierSegments
      = (Line.withinAll (SourceFile.ofText variant text).lines).flatMap fun l =>
        l.row.modifiers.map (·.node .modifier) := by
  rw [Node.modifierSegments, filter_handler_root, List.filter_map, List.flatMap_map]
  have each (ls : List Line) (sub : ls ⊆ Line.withinAll (SourceFile.ofText variant text).lines) :
      (ls.filter fun l => l.node.label.kind == .handler).flatMap (fun l =>
        (l.node.children.filter (·.label.kind == .chain)).flatMap
          fun chain => NumberedTree.everySecond chain.children)
      = ls.flatMap fun l => l.row.modifiers.map (·.node .modifier) := by
    induction ls with
    | nil => rfl
    | cons l ls ih =>
      obtain ⟨hl, sub⟩ := List.cons_subset.mp sub
      rw [List.filter_cons, List.flatMap_cons, ← ih sub]
      split
      · next handler => rw [List.flatMap_cons, segments_of_line hl (by simpa using handler)]
      · next other =>
        have none : l.row.modifiers = [] := by
          cases l with
          | element => rfl
          | simple f b =>
            cases b with
            | handler => exact absurd rfl other
            | _ => rfl
        rw [none]
        rfl
  exact each _ (List.Subset.refl _)

end

/-! ## 2. Hints -/

/-- The name of the key that a segment is the code of. -/
def Node.keyName? (n : Node) : Option String :=
  (readNumber? wordBound (trimInline n.source)).bind OffsideMarkup.keyName?

/-- The hint shows the name of a key in front of a segment that is there. Between spaces, the
segment is the code of that key, and the hint stands in front of the code. -/
inductive KeyHint.Shows (d : Document) (n : Node) (hint : KeyHint) : Prop
  | inFront {before space digits behind after : List Char} {code : Nat} {name : String}
      (there : n.label.missing = false)
      (split : d.text = before ++ (space ++ digits ++ behind) ++ after)
      (bytes : n.label.extent.span
        = ⟨byteLength before, byteLength (before ++ (space ++ digits ++ behind))⟩)
      (spaces : ∀ c ∈ space ++ behind, isInlineSpace c = true)
      (number : WritesNumber digits code) (short : code < wordBound)
      (key : keyName? code = some name)
      (label : hint.label = name ++ " :")
      (place : d.position? (byteLength (before ++ space)) = some hint.position)

/-- What a list is filtered for, and what is made of it. -/
theorem forall₂_filterMap {α β : Type} {R : α → β → Prop} {f : α → Option β} {as : List α}
    (h : ∀ a ∈ as, ∀ b, f a = some b → R a b) :
    List.Forall₂ R (as.filter fun a => (f a).isSome) (as.filterMap f) := by
  induction as with
  | nil => exact .nil
  | cons a as ih =>
    obtain ⟨own, later⟩ := List.forall_mem_cons.mp h
    cases found : f a with
    | none => simpa [found] using ih later
    | some b => simpa [found] using ⟨own b found, ih later⟩

section

variable {variant : Variant} {text : List Char} {l : Line} {m : Leaf} {hint : KeyHint}

/-- A modifier of a line is a name, and missing if there is nothing of it. -/
theorem filled_modifier (hl : l ∈ Line.withinAll (SourceFile.ofText variant text).lines)
    (hm : m ∈ l.row.modifiers) : m.Filled .literal := by
  cases row : l.row with
  | element => rw [row] at hm; exact absurd hm (List.not_mem_nil)
  | simple f b =>
    cases b with
    | handler h =>
      rw [row, Row.modifiers] at hm
      obtain ⟨p, hp, rfl⟩ := List.mem_map.mp hm
      exact ((standsOn_of_row hl row).segments p hp).2
    | _ => rw [row] at hm; exact absurd hm (List.not_mem_nil)

theorem ofLeaf?_isSome (m : Leaf) :
    (KeyHint.ofLeaf? m).isSome = (Node.keyName? (m.node .modifier)).isSome := by
  rw [Node.keyName?, Node.source_leaf, KeyHint.ofLeaf?, Option.isSome_map, Leaf.text]

/-- The hint of a modifier shows the name of its key. -/
theorem shows_ofLeaf (uri language : String) (version : Int)
    (hl : l ∈ Line.withinAll (SourceFile.ofText variant text).lines) (hm : m ∈ l.row.modifiers)
    (found : KeyHint.ofLeaf? m = some hint) :
    hint.Shows ⟨uri, language, version, text, .ofText text, .ofText variant text⟩
      (m.node .modifier) := by
  have filled := filled_modifier hl hm
  have inTree : m.node .modifier ∈ (SourceFile.ofText variant text).root.subtrees := by
    refine Node.mem_subtrees_of_modifierSegments ?_
    rw [modifierSegments_root]
    exact List.mem_flatMap.mpr ⟨l, hl, List.mem_map_of_mem hm⟩
  obtain ⟨name, key, rfl⟩ := Option.map_eq_some_iff.mp found
  obtain ⟨code, read, key⟩ := Option.bind_eq_some_iff.mp key
  obtain ⟨number, short⟩ := readNumber?_eq_some_iff.mp read
  obtain ⟨space, back, front, parts, spaces⟩ := exists_trimInline m.source
  obtain ⟨before, after, split, start⟩ := placed_of_mem_subtrees inTree
  have stop := ((sound_root variant text).of_mem_subtrees _ inTree).length.1
  have charted := (charted_root variant text _ inTree).start
  rw [Node.source_leaf, parts] at split stop
  have present : m.missing = false := by
    rw [← Bool.not_eq_true, filled.missing_iff]
    intro nothing
    exact number.ne_nil (by rw [Leaf.text, nothing]; rfl)
  refine .inFront present split ?_ spaces number short key rfl ?_
  · refine Span.mk.injEq .. |>.mpr ⟨start, ?_⟩
    rw [byteLength_append before, ← start]
    exact stop
  · have place : (m.start.after space).Charted text := by
      rw [List.append_assoc space, ← List.append_assoc before, List.append_assoc _ _ after] at split
      subst split
      exact charted.after start (unbroken_of_inlineSpace (List.forall_mem_append.mp spaces).1)
    have offset : (m.start.after space).offset = byteLength (before ++ space) := by
      rw [byteLength_append, ← start]
      rfl
    rw [Leaf.contentRegion_eq (by rw [filled.kind]; decide), front]
    exact offset ▸ place.position?

end

/-- The hints of a file. Each shows the name of a key in front of a segment of a modifier chain, and
they come in the order of the segments: there is one for each segment that is, without the space
around it, the code of a key in decimal notation, and none for the others. So there is none for a
segment that is missing, and none for what stands in other chains. -/
theorem key_hints (variant : Variant) (uri language : String) (version : Int) (text : List Char) :
    let d : Document := ⟨uri, language, version, text, .ofText text, .ofText variant text⟩
    let segments := d.tree.root.modifierSegments
    List.Forall₂ (fun n hint => hint.Shows d n) (segments.filter fun n => n.keyName?.isSome)
        d.tree.keyHints
      ∧ (∀ n ∈ segments, ∀ name, n.keyName? = some name ↔ ∃ code,
        WritesNumber (trimInline n.source) code ∧ code < wordBound ∧ keyName? code = some name)
      ∧ ∀ n ∈ segments, n.label.missing = true → n.keyName? = none := by
  intro d segments
  -- Segments and hints are made of the same leaves.
  let leaves := (Line.withinAll d.tree.lines).flatMap fun l => l.row.modifiers
  have nodes : segments = leaves.map (·.node .modifier) :=
    modifierSegments_root.trans List.map_flatMap.symm
  have hints : d.tree.keyHints = leaves.filterMap KeyHint.ofLeaf? :=
    (keyHintsOf_eq d.tree.lines).trans List.filterMap_flatMap.symm
  refine ⟨?_, fun n _ name => ?_, fun n hn missing => ?_⟩
  · have kept : (leaves.filter fun m => (Node.keyName? (m.node .modifier)).isSome)
        = leaves.filter fun m => (KeyHint.ofLeaf? m).isSome :=
      List.filter_congr fun m _ => (ofLeaf?_isSome m).symm
    rw [nodes, hints, List.filter_map, List.forall₂_map_left_iff]
    refine kept ▸ forall₂_filterMap fun m hm hint found => ?_
    obtain ⟨l, hl, hm⟩ := List.mem_flatMap.mp hm
    exact shows_ofLeaf uri language version hl hm found
  · simp only [Node.keyName?, Option.bind_eq_some_iff, readNumber?_eq_some_iff, and_assoc]
  · rw [nodes] at hn
    obtain ⟨m, hm, rfl⟩ := List.mem_map.mp hn
    obtain ⟨l, hl, hm⟩ := List.mem_flatMap.mp hm
    have nothing := (filled_modifier hl hm).missing_iff.mp missing
    rw [Node.keyName?, Node.source_leaf, nothing]
    rfl

/-- The class chain of a tag has no hints, and a segment may have space around it. -/
example : (SourceFile.ofText .html ">a.13\n @k.13.999. +65 =b".toList).keyHints
    = [⟨⟨1, 4⟩, "ENTER :"⟩, ⟨⟨1, 12⟩, "A :"⟩] := by decide +kernel

end OffsideMarkup
