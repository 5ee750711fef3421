/-
OffsideMarkup.Proofs.HandlerLine — the leaves of a line that handles an event.

The modifiers of a handler are dots, each with an item behind it, and the item may be missing. Of
the nodes on such a line these are all that play the part of a modifier (`exists_hasModifier`): the
event and the action are leaves of their own, and the paths in the parameter are chains that are
just parts of their line.

* `Handler.segments` — the dots with their items; `Handler.modifierLeaves` — all these in a row.
* `Handler.leafLabels_nodes` — the leaves of the line, in three stretches: what is in front of the
  modifiers, the modifiers, and what is behind them.
* `Handler.StandsOn` — the leaves lie side by side on a line, and a leaf that is there has
  characters. Without an equals sign nothing comes behind the modifiers. All handlers that are read
  are like this (`standsOn_of_row`).
-/
import OffsideMarkup.Proofs.DeclaredName
import OffsideMarkup.Proofs.ReaderYield
import OffsideMarkup.Proofs.SpotChoice

namespace OffsideMarkup

/-! ## 1. The parts of a line -/

/-- All nodes are just parts of their line. -/
def Everywhere.Plain (ts : List Node) : Prop := Everywhere (·.role = .part) ts

section

open Everywhere

theorem plain_leaf (l : Leaf) : Plain [l.node .part] := node rfl nil

theorem plain_chain {α : Type} {item : α → Node} (h : ∀ a, Plain [item a]) (c : Chain α) :
    Plain [c.node .part item] := by
  refine node rfl (cons (h c.head) ?_)
  induction c.tail with
  | nil => exact nil
  | cons p later ih => exact (cons (plain_leaf p.1) (h p.2)).append ih

theorem plain_mustache (m : Mustache) : Plain [m.node] := by
  have fallback : Plain (pairNodes (·.node .part) (·.node .part) m.fallback) :=
    pair plain_leaf plain_leaf m.fallback
  refine node rfl (append (append ?_ fallback) (plain_leaf m.closing))
  exact cons (plain_leaf m.opening) (plain_chain plain_leaf m.path)

theorem plain_template (t : Template) : Plain [t.node] := by
  refine node rfl ?_
  induction t.parts with
  | nil => exact nil
  | cons p parts ih =>
    cases p with
    | literal l => exact cons (plain_leaf l) ih
    | mustache m => exact cons (plain_mustache m) ih

end

/-- The labels of the leaves under nodes side by side. -/
def leafLabels (ts : List Node) : List Label := (Rose.preorderAll ts).filter Label.isLeaf

theorem leafLabels_append (ts us : List Node) :
    leafLabels (ts ++ us) = leafLabels ts ++ leafLabels us := by
  rw [leafLabels, Rose.preorderAll_append, List.filter_append]
  rfl

theorem leafLabels_cons (t : Node) (ts : List Node) :
    leafLabels (t :: ts) = leafLabels [t] ++ leafLabels ts := leafLabels_append [t] ts

theorem leafLabels_compose (kind : Kind) (start : Location) (ts : List Node)
    (level : Option Nat) : leafLabels [Node.compose kind start ts level] = leafLabels ts := by
  rw [leafLabels, Rose.preorderAll, Rose.preorderAll, List.append_nil, Node.compose, Rose.preorder]
  rfl

/-- What is known of leaves is said by their labels. -/
theorem leavesOf_eq (ts : List Node) : leavesOf ts = (leafLabels ts).filterMap Label.leaf? := by
  rw [leafLabels, List.filterMap_filter, leavesOf]
  refine List.filterMap_congr fun l _ => ?_
  rw [Label.isLeaf, Label.leaf?]
  cases l.source <;> rfl

namespace Handler

/-- The dots of the modifiers, each with the item behind it. -/
def segments (h : Handler) : List (Leaf × Leaf) :=
  h.modifiers.elim [] fun (dot, chain) => (dot, chain.head) :: chain.tail

/-- The dots and items in a row. -/
def modifierLeaves (h : Handler) : List Leaf := h.segments.flatMap fun (dot, item) => [dot, item]

/-- What is on the line behind the modifiers. -/
def nodesBehind (h : Handler) : List Node :=
  h.equals.node .part :: h.action.node .part
    :: pairNodes (·.node .part) Template.node h.parameter

variable {h : Handler} {i : Nat} {dot item : Leaf}

theorem mem_modifierLeaves {l : Leaf} :
    l ∈ h.modifierLeaves ↔ ∃ (i : Nat) (dot item : Leaf),
      h.segments[i]? = some (dot, item) ∧ (l = dot ∨ l = item) := by
  rw [modifierLeaves, List.mem_flatMap]
  constructor
  · rintro ⟨⟨dot, item⟩, mem, is⟩
    obtain ⟨i, at_i⟩ := List.mem_iff_getElem?.mp mem
    exact ⟨i, dot, item, at_i, by simpa using is⟩
  · rintro ⟨i, dot, item, at_i, is⟩
    exact ⟨(dot, item), List.mem_of_getElem? at_i, by simpa using is⟩

theorem item_mem (at_i : h.segments[i]? = some (dot, item)) : item ∈ h.modifierLeaves :=
  mem_modifierLeaves.mpr ⟨i, dot, item, at_i, .inr rfl⟩

section

variable {R : Leaf → Leaf → Prop} (order : h.modifierLeaves.Pairwise R)

include order

/-- What is said of all leaves in order is said of a dot and its item. -/
theorem rel_item (at_i : h.segments[i]? = some (dot, item)) : R dot item := by
  rw [modifierLeaves, List.pairwise_flatMap] at order
  have own := order.1 _ (List.mem_of_getElem? at_i)
  exact (List.pairwise_cons.mp own).1 item (List.mem_singleton_self item)

/-- It is said of two segments as well. -/
theorem rel_of_lt {j : Nat} {dot' item' x y : Leaf} (at_i : h.segments[i]? = some (dot, item))
    (at_j : h.segments[j]? = some (dot', item')) (less : i < j) (hx : x = dot ∨ x = item)
    (hy : y = dot' ∨ y = item') : R x y := by
  rw [modifierLeaves, List.pairwise_flatMap] at order
  obtain ⟨hi, at_i⟩ := List.getElem?_eq_some_iff.mp at_i
  obtain ⟨hj, at_j⟩ := List.getElem?_eq_some_iff.mp at_j
  have apart := List.pairwise_iff_getElem.mp order.2 i j hi hj less
  rw [at_i, at_j] at apart
  exact apart x (by simpa using hx) y (by simpa using hy)

end

theorem plain_nodesBehind (h : Handler) : Everywhere.Plain h.nodesBehind :=
  (plain_leaf h.equals).cons
    ((plain_leaf h.action).cons (Everywhere.pair plain_leaf plain_template h.parameter))

/-- The leaves of the modifiers, if there are any. -/
theorem leafLabels_modifiers (h : Handler) :
    leafLabels (pairNodes (·.node .modifier) (·.node .modifier (·.node .modifier)) h.modifiers)
      = h.modifierLeaves.map fun l => (l.node .modifier).label := by
  rw [modifierLeaves, segments]
  cases h.modifiers with
  | none => rfl
  | some p =>
    obtain ⟨dot, chain⟩ := p
    have later (ps : List (Leaf × Leaf)) :
        leafLabels (ps.flatMap fun (dot, a) => [dot.node .modifier, a.node .modifier])
          = (ps.flatMap fun (dot, item) => [dot, item]).map fun l => (l.node .modifier).label := by
      induction ps with
      | nil => rfl
      | cons p ps ih =>
        rw [List.flatMap_cons, List.flatMap_cons, leafLabels_append, List.map_append, ih]
        rfl
    rw [pairNodes, leafLabels_cons (dot.node .modifier), Chain.node, leafLabels_compose,
      Chain.nodes, leafLabels_cons (chain.head.node .modifier), later, Option.elim_some,
      List.flatMap_cons, List.map_append]
    rfl

theorem nodes_eq (h : Handler) : (Body.handler h).nodes
    = [h.sigil.node .sigil, h.event.node .subject]
      ++ pairNodes (·.node .modifier) (·.node .modifier (·.node .modifier)) h.modifiers
      ++ h.nodesBehind := by
  simp [Body.nodes, nodesBehind]

/-- The leaves of a handler: the sigil and the event, the modifiers, and what is behind them. -/
theorem leafLabels_nodes (h : Handler) : leafLabels (Body.handler h).nodes
    = [(h.sigil.node .sigil).label, (h.event.node .subject).label]
      ++ h.modifierLeaves.map (fun l => (l.node .modifier).label) ++ leafLabels h.nodesBehind := by
  rw [nodes_eq, leafLabels_append, leafLabels_append, leafLabels_modifiers]
  rfl

theorem leavesOf_nodes (h : Handler) : leavesOf (Body.handler h).nodes
    = [h.sigil, h.event] ++ h.modifierLeaves ++ leavesOf h.nodesBehind := by
  have own : (h.modifierLeaves.map fun l => (l.node .modifier).label).filterMap Label.leaf?
      = h.modifierLeaves := by
    rw [List.filterMap_map]
    exact List.filterMap_some
  rw [leavesOf_eq, leafLabels_nodes, List.filterMap_append, List.filterMap_append, own,
    ← leavesOf_eq]
  rfl

end Handler

/-! ## 2. What is there has characters -/

/-- A leaf of a kind that has no characters exactly if it is missing. -/
structure Leaf.Filled (k : Kind) (l : Leaf) : Prop where
  kind : l.kind = k
  missing_iff : l.missing = true ↔ l.source = []

namespace Leaf

variable {k : Kind} {l : Leaf}

theorem Filled.source_ne_nil (h : l.Filled k) (there : l.missing = false) : l.source ≠ [] :=
  fun empty => Bool.false_ne_true (there.symm.trans (h.missing_iff.mpr empty))

theorem filled_ofToken {t : Token} (solid : t.source ≠ []) : (Leaf.ofToken t).Filled t.kind :=
  ⟨rfl, fun gone => absurd gone Bool.false_ne_true, fun empty => absurd empty solid⟩

end Leaf

/-- What is known of the leaves of a handler that was read. -/
structure Handler.WellRead (h : Handler) : Prop where
  sigil : h.sigil.kind = .atSign ∧ h.sigil.missing = false ∧ unitLength h.sigil.source = 1
  event : h.event.Filled .literal
  segments : ∀ p ∈ h.segments, (p.1.Filled .dot ∧ p.1.missing = false) ∧ p.2.Filled .literal
  equals : h.equals.Filled .equals
  behind : h.equals.missing = true → h.action.missing = true ∧ h.parameter = none

namespace Reader

variable {stop t : Token} {ts given : List Token} {h : Handler}

theorem filled_name (stops : KindSet) (solid : Solid given) :
    (name stops stop given).value.Filled .literal := by
  obtain ⟨kind, source, missing, -⟩ := name_tokens stops stop given
  refine ⟨kind, ?_⟩
  rw [source, missing, List.isEmpty_iff, List.flatMap_eq_nil_iff]
  constructor
  · exact fun none => by simp [none]
  · intro empty
    refine List.eq_nil_iff_forall_not_mem.mpr fun u hu => ?_
    exact solid u ((List.takeWhile_prefix _).mem hu) (empty u hu)

theorem filled_expect (kind : Kind) (solid : Solid given) :
    (expect kind stop given).value.Filled kind := by
  rcases head_cases kind given with ⟨t, ts, rfl, is⟩ | other
  · rw [expect_of_kind is]
    exact is ▸ Leaf.filled_ofToken solid.head
  · rw [expect_of_other other]
    exact ⟨rfl, fun _ => rfl, fun _ => rfl⟩

/-- A dot that was seen, with the name behind it. -/
theorem filled_dot (stops : KindSet) (solid : Solid (t :: ts)) (dot : t.kind = .dot) :
    ((Leaf.ofToken t).Filled .dot ∧ (Leaf.ofToken t).missing = false)
      ∧ (name stops stop ts).value.Filled .literal :=
  ⟨⟨dot ▸ Leaf.filled_ofToken solid.head, rfl⟩, filled_name stops solid.tail⟩

theorem filled_dotted (stops : KindSet) (solid : Solid given) :
    ∀ p ∈ (dotted (name stops) stop given).value,
      (p.1.Filled .dot ∧ p.1.missing = false) ∧ p.2.Filled .literal := by
  induction given using dotted.induct (name stops) stop with
  | case1 => rw [dotted_of_other _ (by simp)]; simp
  | case2 t ts dot first later =>
    rw [dotted_of_dot _ dot, List.forall_mem_cons]
    exact ⟨filled_dot stops solid dot, later (solid.tail.rest (name stops))⟩
  | case3 t ts dot => rw [dotted_of_other _ (by simpa using dot)]; simp

/-- Where nothing but a token can come next, the line is at its end if the token is missing. -/
theorem rest_expect_of_missing {kind : Kind} (next : Before [kind] given)
    (gone : (expect kind stop given).value.missing = true) :
    (expect kind stop given).rest = [] := by
  rcases head_cases kind given with ⟨t, ts, rfl, is⟩ | other
  · rw [expect_of_kind is] at gone
    exact absurd gone Bool.false_ne_true
  · rw [expect_of_other other]
    cases given with
    | nil => rfl
    | cons t ts => exact absurd (List.mem_singleton.mp (next t rfl)) (other t rfl)

/-- A handler whose sigil is one unit wide is read well. Without an equals sign there is nothing
left behind the modifiers. -/
theorem wellRead_handlerBehind (solid : Solid (t :: ts)) (sigil : t.kind = .atSign)
    (width : unitLength t.source = 1) :
    (handlerBehind (.ofToken t) stop ts).value.WellRead := by
  have stops := readsUpTo_name [.dot, .equals] stop ts
  have behindEvent : Solid (name (.ofList [.dot, .equals]) stop ts).rest := solid.tail.rest _
  have chainEnds : ReadsUpTo [.equals] (chain (name (.ofList [.dot, .equals]))) :=
    readsUpTo_chain (readsUpTo_name [.dot, .equals])
  have next := before_behind stop chainEnds stops
  have behindModifiers : Solid (behind .dot (chain (name (.ofList [.dot, .equals]))) stop
      (name (.ofList [.dot, .equals]) stop ts).rest).rest := behindEvent.rest _
  refine ⟨⟨sigil, rfl, width⟩, filled_name _ solid.tail, ?_, filled_expect .equals behindModifiers,
    fun gone => ?_⟩
  · rw [Handler.segments]
    show ∀ p ∈ (behind .dot (chain (name (.ofList [.dot, .equals]))) stop _).value.elim [] _, _
    rcases head_cases .dot (name (.ofList [.dot, .equals]) stop ts).rest
      with ⟨u, us, rest, is⟩ | other
    · rw [rest] at behindEvent ⊢
      rw [behind_of_kind _ is, Option.elim_some, List.forall_mem_cons]
      exact ⟨filled_dot _ behindEvent is, filled_dotted _ (behindEvent.tail.rest _)⟩
    · rw [behind_of_other _ other]
      simp
  · have atEnd := rest_expect_of_missing next gone
    show (name (.ofList [.colon]) stop (expect .equals stop _).rest).value.missing = true
      ∧ (behind .colon _ stop
        (name (.ofList [.colon]) stop (expect .equals stop _).rest).rest).value = none
    rw [atEnd, name_of_stop (by simp), behind_of_other _ (by simp)]
    exact ⟨rfl, rfl⟩

/-- Only behind its sigil a handler is read. -/
theorem handler_of_content (is : (content stop given).value = .simple (.handler h)) :
    ∃ t ts, given = t :: ts ∧ t.kind = .atSign
      ∧ h = (handlerBehind (.ofToken t) stop ts).value := by
  cases given with
  | nil => exact absurd is (by simp [content, done])
  | cons t ts =>
    refine ⟨t, ts, rfl, ?_⟩
    cases kind : t.kind <;> simp only [content, kind] at is
    case atSign => exact ⟨rfl, (Body.handler.inj (Content.simple.inj is)).symm⟩
    all_goals exact absurd is (by simp [unreadable, bind, andThen, pure, done])

end Reader

/-! ## 3. Where the leaves stand -/

/-- A handler that was read on the line with a number. -/
structure Handler.StandsOn (h : Handler) (k : Nat) : Prop extends h.WellRead where
  abreast : ∃ here : Location, here.line = k ∧ Abreast here (leavesOf (Body.handler h).nodes)
  inner : ∀ l ∈ leavesOf (Body.handler h).nodes, l.kind.isInner = true

/-- A sigil is one unit wide. -/
theorem unitLength_of_sigil {c : Char} {k : Kind} (h : sigilKind? c = some k) :
    unitLength [c] = 1 := by
  have all : ∀ s ∈ sigils, unitLength [s.1] = 1 := by decide
  exact all (c, k) (mem_sigils h)

section

variable {variant : Variant} {text : List Char} {l m : Line} {f : Frame} {h : Handler}

theorem standsOn_of_row (hl : l ∈ Line.withinAll (SourceFile.ofText variant text).lines)
    (row : l.row = .simple f (.handler h)) : h.StandsOn l.lineNumber := by
  obtain ⟨tl, at_k, read⟩ := exists_tokenLine hl
  obtain ⟨q, e, line, here⟩ := exists_readsLine at_k
  have content := content_of_simple (read.symm.trans row)
  have nodes : (Reader.content tl.stop tl.body).value.nodes = (Body.handler h).nodes := by
    rw [content]
    rfl
  obtain ⟨t, ts, body, kind, is⟩ := Reader.handler_of_content content
  have solid := line.solid_body (by simp [body, kind])
  have width : unitLength t.source = 1 := by
    have opens := line.opensBody
    rw [body] at opens
    generalize q.rest.dropWhile isInlineSpace = cs at opens
    cases opens with
    | comment other => rw [kind] at other; exact absurd other (by decide)
    | sigil sig source => rw [source]; exact unitLength_of_sigil sig
  rw [body] at solid
  refine ⟨is ▸ Reader.wellRead_handlerBehind solid kind width, ?_, nodes ▸ isInner_content tl⟩
  have abreast := (abreast_nodesInFront line).1
  rw [leavesOf_nodesInFront, abreast_append, nodes] at abreast
  have number : q.token.stop.line = l.lineNumber := by
    rw [here]
    rfl
  exact ⟨q.token.stop.after _, number, abreast.2⟩

/-- Lines with one number are one line. -/
theorem Line.eq_of_lineNumber (hl : l ∈ Line.withinAll (SourceFile.ofText variant text).lines)
    (hm : m ∈ Line.withinAll (SourceFile.ofText variant text).lines)
    (same : l.lineNumber = m.lineNumber) : l = m := by
  have numbers := map_lineNumber variant text
  exact List.inj_on_of_nodup_map (numbers ▸ List.nodup_range) hl hm same

/-- What stands on the line of a handler is a leaf of the handler, if it is text. -/
theorem mem_leafLabels (hl : l ∈ Line.withinAll (SourceFile.ofText variant text).lines)
    (row : l.row = .simple f (.handler h)) {x : Label} (hx : x ∈ l.labels) (isText : x.IsText) :
    x ∈ leafLabels (Body.handler h).nodes := by
  obtain ⟨tl, at_k, read⟩ := exists_tokenLine hl
  obtain ⟨q, e, line, -⟩ := exists_readsLine at_k
  rw [Line.labels_eq read, TokenLine.nodesInFront, content_of_simple (read.symm.trans row),
    Rose.preorderAll_append, List.mem_cons, List.mem_append, List.mem_append,
    List.mem_singleton] at hx
  rcases hx with rfl | (indent | content) | rfl
  · exact absurd isText l.not_isText_node
  · rw [Rose.preorderAll_eq_flatMap, List.flatMap_map] at indent
    obtain ⟨leaf, is, mem⟩ := List.mem_flatMap.mp indent
    obtain rfl : x = (leaf.node .part).label := List.mem_singleton.mp mem
    have visible : leaf.kind.isTrivia = false := isText.visible
    rw [(inlineSpace_indent line leaf is).1] at visible
    exact absurd visible (by decide)
  · exact List.mem_filter.mpr ⟨content, isText.leaf⟩
  · exact absurd isText (Label.not_isText_stop line.ends)

end

/-! ## 4. Under the cursor -/

/-- Whose line this is, among some lines and those nested in them: a child of an element has the tag
of the element, and the lines themselves have what is given. -/
inductive Line.HasOwner (owner : Option Tag) (ls : List Line) (l : Line) : Option Tag → Prop
  | outer (mem : l ∈ ls) : HasOwner owner ls l owner
  | child {f : Frame} {t : Tag} {inner : List Line} (element : .element f t inner ∈ withinAll ls)
      (mem : l ∈ inner) : HasOwner owner ls l (some t)

/-- Further lines around do not change whose line it is. -/
theorem Line.HasOwner.cons {owner o : Option Tag} {l m : Line} {ls : List Line}
    (h : l.HasOwner owner ls o) : l.HasOwner owner (m :: ls) o := by
  cases h with
  | outer mem => exact .outer (List.mem_cons_of_mem m mem)
  | child element mem =>
    have later := List.mem_cons_of_mem m (List.mem_append_right (withinAll m.children) element)
    exact .child (withinAll_cons m ls ▸ later) mem

/-- A child of the first line is a child of an element. -/
theorem Line.HasOwner.inner {owner o : Option Tag} {l : Line} {f : Frame} {t : Tag}
    {inner ls : List Line} (h : l.HasOwner (some t) inner o) :
    l.HasOwner owner (.element f t inner :: ls) o := by
  cases h with
  | outer mem => exact .child (by rw [withinAll_cons]; exact List.mem_cons_self) mem
  | child element mem =>
    have nested := List.mem_cons_of_mem (.element f t inner)
      (List.mem_append_left (withinAll ls) element)
    exact .child (withinAll_cons _ ls ▸ nested) mem

/-- A spot is a node of one of the lines, and comes with what that line reads and whose it is. -/
theorem Line.exists_of_mem_spotsOf {owner : Option Tag} {ls : List Line} {s : Spot}
    (hs : s ∈ spotsOf owner ls) :
    ∃ l ∈ withinAll ls, s.row = l.row ∧ s.label ∈ l.labels ∧ l.HasOwner owner ls s.owner := by
  have own (l : Line) (ls : List Line) (hs : s ∈ (l.labels.map (⟨·, l.row, owner⟩) : List Spot)) :
      s.row = l.row ∧ s.label ∈ l.labels ∧ l.HasOwner owner (l :: ls) s.owner := by
    obtain ⟨x, hx, rfl⟩ := List.mem_map.mp hs
    exact ⟨rfl, hx, .outer List.mem_cons_self⟩
  match ls with
  | [] => exact absurd hs (by simp [spotsOf])
  | .simple f b :: ls =>
    rw [spotsOf, spots, List.mem_append] at hs
    rw [withinAll_cons]
    rcases hs with here | later
    · exact ⟨_, List.mem_cons_self, own (.simple f b) ls here⟩
    · obtain ⟨l, hl, row, label, whose⟩ := exists_of_mem_spotsOf later
      exact ⟨l, List.mem_cons_of_mem _ (List.mem_append_right _ hl), row, label, whose.cons⟩
  | .element f t inner :: ls =>
    rw [spotsOf, spots, List.mem_append, List.mem_append] at hs
    rw [withinAll_cons]
    rcases hs with (here | nested) | later
    · exact ⟨_, List.mem_cons_self, own (.element f t inner) ls here⟩
    · obtain ⟨l, hl, row, label, whose⟩ := exists_of_mem_spotsOf nested
      exact ⟨l, List.mem_cons_of_mem _ (List.mem_append_left _ hl), row, label, whose.inner⟩
    · obtain ⟨l, hl, row, label, whose⟩ := exists_of_mem_spotsOf later
      exact ⟨l, List.mem_cons_of_mem _ (List.mem_append_right _ hl), row, label, whose.cons⟩
termination_by sizeOf ls

/-- On the line an event is handled, and the node is the dot of the segment with this number, or the
item behind it. -/
structure Line.HasModifier (l : Line) (h : Handler) (i : Nat) (x : Label) : Prop where
  row : ∃ f, l.row = .simple f (.handler h)
  leaf : ∃ dot item, h.segments[i]? = some (dot, item)
    ∧ (x = (dot.node .modifier).label ∨ x = (item.node .modifier).label)

section

variable {variant : Variant} {text : List Char} {p : Position} {s : Spot} {l : Line}

/-- What is under the cursor can be reached by it. -/
theorem SourceFile.reached_of_spotAt? {file : SourceFile} (chosen : file.spotAt? p = some s) :
    s ∈ Line.spotsOf none file.lines ∧ s.label.Reached p := by
  obtain ⟨there, touched⟩ := List.mem_filter.mp (Spot.mem_of_best? chosen)
  exact ⟨there, Spot.reached_iff.mp touched⟩

/-- What is more than a part of its line is a leaf. -/
theorem SourceFile.isLeaf_of_role {file : SourceFile} (chosen : file.spotAt? p = some s)
    (role : s.label.role ≠ .part) : s.label.isLeaf = true := by
  by_contra composite
  have there := (reached_of_spotAt? chosen).1
  exact role (Line.role_of_composite none _ s there (by simpa using composite))

/-- A leaf under the cursor is text on the line of the cursor, and comes with whose line that is. -/
theorem exists_line_of_spotAt? (chosen : (SourceFile.ofText variant text).spotAt? p = some s)
    (leaf : s.label.isLeaf = true) : s.label.IsText
      ∧ ∃ l ∈ Line.withinAll (SourceFile.ofText variant text).lines,
        l.lineNumber = p.line ∧ s.row = l.row ∧ s.label ∈ l.labels
          ∧ l.HasOwner none (SourceFile.ofText variant text).lines s.owner := by
  obtain ⟨there, reached⟩ := SourceFile.reached_of_spotAt? chosen
  obtain ⟨l, hl, row, mem, whose⟩ := Line.exists_of_mem_spotsOf there
  have isText : s.label.IsText := ⟨leaf, reached.visible, reached.inText⟩
  exact ⟨isText, l, hl, (text_label hl mem isText).1.symm.trans reached.line, row, mem, whose⟩

theorem isText_of_spotAt? (chosen : (SourceFile.ofText variant text).spotAt? p = some s)
    (leaf : s.label.isLeaf = true) : s.label.IsText
      ∧ ∃ l ∈ Line.withinAll (SourceFile.ofText variant text).lines,
        l.lineNumber = p.line ∧ s.row = l.row ∧ s.label ∈ l.labels := by
  obtain ⟨isText, l, hl, number, row, mem, -⟩ := exists_line_of_spotAt? chosen leaf
  exact ⟨isText, l, hl, number, row, mem⟩

/-- What plays the part of a modifier is a leaf of the modifiers. -/
theorem exists_hasModifier {f : Frame} {h : Handler}
    (hl : l ∈ Line.withinAll (SourceFile.ofText variant text).lines)
    (row : l.row = .simple f (.handler h)) {x : Label} (hx : x ∈ l.labels) (isText : x.IsText)
    (role : x.role = .modifier) : ∃ i, l.HasModifier h i x := by
  have mem := mem_leafLabels hl row hx isText
  rw [Handler.leafLabels_nodes, List.mem_append, List.mem_append] at mem
  rcases mem with (front | own) | behind
  · simp only [List.mem_cons, List.not_mem_nil, or_false] at front
    rcases front with rfl | rfl <;> exact absurd role (by simp [Leaf.node, Rose.label])
  · obtain ⟨leaf, mem, rfl⟩ := List.mem_map.mp own
    obtain ⟨i, dot, item, at_i, is⟩ := Handler.mem_modifierLeaves.mp mem
    exact ⟨i, ⟨f, row⟩, dot, item, at_i, is.imp (by rintro rfl; rfl) (by rintro rfl; rfl)⟩
  · have plain : x.role = .part := h.plain_nodesBehind x (List.mem_filter.mp behind).1
    exact absurd (role.symm.trans plain) (by decide)

end

end OffsideMarkup
