/-
OffsideMarkup.Proofs.NodePlaces — where in the tree the nodes stand that completion asks for.

What is offered at the cursor goes by the part that a node plays in its line. The part can be told
from the tree as well, by kinds: that of the node, of its parent and of the parent's parent. What is
offered from the catalogue is offered at a dot right under a handler, or right under a chain that is
right under one (`Label.InModifiers`); the host is asked at one of four sigils, right under what the
sigil opens (`Label.OpensForm`). No place is both (`Label.InModifiers.not_opensForm`).

* `Row.Sigiled` — the sigils and dots of a line are of the kinds that the grammar wants there; all
  lines that are read are like this (`sigiled_of_mem`).
* `placesAll_row` — the nodes of a line stand where their parts in it say.
* `forall₂_spotsOf`, `exists_place` — so do the spots of a file, and the node under the cursor.
-/
import OffsideMarkup.Proofs.ModifierOffer

namespace OffsideMarkup

/-! ## 1. Places -/

namespace Label

/-- The node is a dot right under a handler, or stands right under a chain right under one. -/
def InModifiers (above : List Label) (l : Label) : Prop :=
  (l.kind = .dot ∧ [.handler] <+: above.map kind) ∨ [.chain, .handler] <+: above.map kind

/-- The sigils in front of what the host knows about, each with what it opens. -/
def forms : List (Kind × Kind) :=
  [(.greaterThan, .tag), (.hashSign, .attribute), (.percentSign, .attribute), (.atSign, .handler)]

/-- The node is a sigil right under what it opens. -/
def OpensForm (above : List Label) (l : Label) : Prop :=
  ∃ form, (l.kind, form) ∈ forms ∧ [form] <+: above.map kind

variable {above : List Label} {l : Label}

/-- No place is both: a dot opens none of the forms, and no form is a chain. -/
theorem InModifiers.not_opensForm (h : l.InModifiers above) : ¬ l.OpensForm above := by
  rintro ⟨form, opens, under⟩
  have no_dot : ∀ f ∈ forms, f.1 ≠ .dot := by decide
  have no_chain : ∀ f ∈ forms, f.2 ≠ .chain := by decide
  rcases h with ⟨dot, -⟩ | chain
  · exact no_dot _ opens dot
  · have parent : [Kind.chain] <+: above.map kind := (List.prefix_append [_] [_]).trans chain
    have same := (List.prefix_of_prefix_length_le under parent (Nat.le_refl _)).eq_of_length rfl
    exact no_chain _ opens (List.singleton_inj.mp same)

end Label

/-- The place of a node is what its part in the line says. -/
structure Row.Places (r : Row) (above : List Label) (l : Label) : Prop where
  modifier : l.role = .modifier → l.InModifiers above
  sigil : l.role = .sigil → ∀ owner, r.target? owner ≠ none → l.OpensForm above

namespace Row.Places

variable {r : Row} {above : List Label} {l : Label} {a : Leaf}

/-- Nodes that are neither modifiers nor sigils may stand anywhere. -/
theorem other (modifier : l.role ≠ .modifier) (sigil : l.role ≠ .sigil) : r.Places above l :=
  ⟨fun is => absurd is modifier, fun is => absurd is sigil⟩

theorem ofSigil (opens : ∀ owner, r.target? owner ≠ none → (a.node .sigil).label.OpensForm above) :
    r.Places above (a.node .sigil).label := by
  have sigil : (a.node .sigil).label.role = .sigil := rfl
  exact ⟨fun is => absurd (sigil.symm.trans is) (by decide), fun _ => opens⟩

theorem ofModifier (own : (a.node .modifier).label.InModifiers above) :
    r.Places above (a.node .modifier).label := by
  have modifier : (a.node .modifier).label.role = .modifier := rfl
  exact ⟨fun _ => own, fun is => absurd (modifier.symm.trans is) (by decide)⟩

end Row.Places

/-- All of these nodes, and those under them, stand where their parts in the line say. -/
def Row.PlacesAll (r : Row) (above : List Label) (ts : List Node) : Prop :=
  ∀ x ∈ Rose.withAncestorsAll above ts, r.Places x.1 x.2

namespace Row.PlacesAll

variable {r : Row} {above : List Label} {ts us : List Node}

theorem append (h : r.PlacesAll above ts) (h' : r.PlacesAll above us) :
    r.PlacesAll above (ts ++ us) := by
  intro x hx
  rw [Rose.withAncestorsAll_append, List.mem_append] at hx
  exact hx.elim (h x) (h' x)

theorem cons {t : Node} (h : r.PlacesAll above [t]) (h' : r.PlacesAll above ts) :
    r.PlacesAll above (t :: ts) := h.append h'

/-- Parts may stand anywhere. -/
theorem plain (h : Everywhere.Plain ts) : r.PlacesAll above ts := by
  intro x hx
  have part := h x.2 (Rose.mem_preorderAll_of_withAncestorsAll ts x hx)
  exact .other (by simp [part]) (by simp [part])

theorem leaf {l : Leaf} {role : Role} (h : r.Places above (l.node role).label) :
    r.PlacesAll above [l.node role] := by
  intro x hx
  obtain rfl : x = (above, (l.node role).label) := List.mem_singleton.mp hx
  exact h

theorem leaf_other (l : Leaf) {role : Role} (modifier : role ≠ .modifier) (sigil : role ≠ .sigil) :
    r.PlacesAll above [l.node role] := leaf (.other modifier sigil)

theorem compose {kind : Kind} {start : Location} {level : Option Nat}
    (h : r.PlacesAll ((Node.compose kind start ts level).label :: above) ts) :
    r.PlacesAll above [Node.compose kind start ts level] := by
  intro x hx
  rw [Rose.withAncestorsAll, Rose.withAncestorsAll, List.append_nil, Node.compose,
    Rose.withAncestors, List.mem_cons] at hx
  rcases hx with rfl | under
  · exact .other (show Role.part ≠ .modifier by decide) (show Role.part ≠ .sigil by decide)
  · exact h x under

end Row.PlacesAll

/-! ## 2. Lines -/

/-- The line opens with the sigil that the grammar wants there, and modifiers start with dots. -/
def Row.Sigiled : Row → Prop
  | .element _ t => t.sigil.kind = .greaterThan
  | .simple _ (.attribute a) => a.sigil.kind = .hashSign ∨ a.sigil.kind = .percentSign
  | .simple _ (.handler h) => h.sigil.kind = .atSign ∧ ∀ p ∈ h.segments, p.1.kind = .dot
  | .simple _ _ => True

/-- What was read opens with the sigil that the grammar wants there; of handlers that is known. -/
def Reader.Content.Sigiled : Content → Prop
  | .element t => t.sigil.kind = .greaterThan
  | .simple (.attribute a) => a.sigil.kind = .hashSign ∨ a.sigil.kind = .percentSign
  | .simple _ => True

theorem Reader.sigiled_content (stop : Token) (given : List Token) :
    (content stop given).value.Sigiled := by
  cases given with
  | nil => trivial
  | cons t ts =>
    cases kind : t.kind <;> simp only [content, kind]
    case greaterThan => exact kind
    case hashSign => exact .inl kind
    case percentSign => exact .inr kind
    all_goals trivial

theorem sigiled_of_mem {variant : Variant} {text : List Char} {l : Line}
    (hl : l ∈ Line.withinAll (SourceFile.ofText variant text).lines) : l.row.Sigiled := by
  obtain ⟨tl, -, read⟩ := exists_tokenLine hl
  have sigiled := Reader.sigiled_content tl.stop tl.body
  cases row : l.row with
  | element f t =>
    rw [content_of_element (read.symm.trans row)] at sigiled
    exact sigiled
  | simple f b =>
    rw [content_of_simple (read.symm.trans row)] at sigiled
    match b, row, sigiled with
    | .comment _, _, _ => trivial
    | .attribute _, _, sigiled => exact sigiled
    | .handler h, row, _ =>
      have stands := standsOn_of_row hl row
      exact ⟨stands.sigil.1, fun p hp => (stands.segments p hp).1.1.kind⟩
    | .text _ _, _, _ => trivial
    | .mountingPoint _ _, _, _ => trivial

theorem plain_value (v : Value) : Everywhere.Plain [v.node] := by
  cases v with
  | mustache m => exact plain_mustache m
  | template t => exact plain_template t

theorem plain_indent (f : Frame) : Everywhere.Plain (f.indent.toList.map (·.node .part)) := by
  cases f.indent with
  | none => exact Everywhere.nil
  | some l => exact plain_leaf l

section

open Row.PlacesAll Everywhere

variable {f : Frame} {p : Label} {above : List Label}

/-- A sigil with the name behind it. -/
theorem placesAll_front {r : Row} {sigil name : Leaf}
    (opens : ∀ owner, r.target? owner ≠ none → (sigil.node .sigil).label.OpensForm above) :
    r.PlacesAll above [sigil.node .sigil, name.node .subject] :=
  cons (leaf (.ofSigil opens)) (leaf_other name (by decide) (by decide))

/-- The dots and items of a modifier chain stand right under the chain. -/
theorem placesAll_chain {r : Row} (under : [Kind.handler] <+: above.map Label.kind)
    (c : Chain Leaf) : r.PlacesAll above [c.node .modifier (·.node .modifier)] := by
  refine compose ?_
  generalize is : (Node.compose .chain _ _ none).label = own
  have chain : [Kind.chain, .handler] <+: (own :: above).map Label.kind := by
    obtain ⟨rest, e⟩ := under
    exact ⟨rest, by rw [List.map_cons, ← e, ← is]; rfl⟩
  have item (l : Leaf) : r.PlacesAll (own :: above) [l.node .modifier] :=
    leaf (.ofModifier (.inr chain))
  refine cons (item c.head) ?_
  induction c.tail with
  | nil => exact plain nil
  | cons p later ih => exact (cons (item p.1) (item p.2)).append ih

theorem placesAll_handler {h : Handler} (own : p.kind = .handler)
    (sigiled : (Row.simple f (.handler h)).Sigiled) :
    (Row.simple f (.handler h)).PlacesAll (p :: above) (Body.handler h).nodes := by
  have under : [Kind.handler] <+: (p :: above).map Label.kind :=
    ⟨_, by rw [List.map_cons, own]; rfl⟩
  obtain ⟨sigil, dots⟩ := sigiled
  have opens : (h.sigil.node .sigil).label.OpensForm (p :: above) := by
    refine ⟨.handler, ?_, under⟩
    simp [Label.forms, Leaf.node, Rose.label, sigil]
  rw [Handler.nodes_eq]
  refine append (append (placesAll_front fun _ _ => opens) ?_) (plain h.plain_nodesBehind)
  cases modifiers : h.modifiers with
  | none => exact plain nil
  | some m =>
    have dot : m.1.kind = .dot := dots (m.1, m.2.head) (by simp [Handler.segments, modifiers])
    exact cons (leaf (.ofModifier (.inl ⟨dot, under⟩))) (placesAll_chain under m.2)

theorem placesAll_attribute {a : Attribute} (own : p.kind = .attribute)
    (sigiled : (Row.simple f (.attribute a)).Sigiled) :
    (Row.simple f (.attribute a)).PlacesAll (p :: above) (Body.attribute a).nodes := by
  have opens : (a.sigil.node .sigil).label.OpensForm (p :: above) := by
    refine ⟨.attribute, ?_, _, by rw [List.map_cons, own]; rfl⟩
    rcases sigiled with is | is <;> simp [Label.forms, Leaf.node, Rose.label, is]
  have value := pair plain_leaf plain_value a.value
  refine append (append (placesAll_front fun _ _ => opens) ?_) (plain value)
  cases a.trigger with
  | none => exact plain nil
  | some t =>
    exact cons (leaf_other t.1 (by decide) (by decide)) (leaf_other t.2 (by decide) (by decide))

theorem placesAll_tag {t : Tag} (sigiled : (Row.element f t).Sigiled) :
    (Row.element f t).PlacesAll above [t.node] := by
  refine compose ?_
  have opens : (t.sigil.node .sigil).label.OpensForm (t.node.label :: above) := by
    have sigil : t.sigil.kind = .greaterThan := sigiled
    refine ⟨.tag, ?_, _, rfl⟩
    simp [Label.forms, Leaf.node, Rose.label, sigil]
  have classes := pair plain_leaf (plain_chain plain_template) t.classes
  have reference := pair plain_leaf plain_leaf t.reference
  exact append (append (placesAll_front fun _ _ => opens) (plain classes)) (plain reference)

/-- The nodes of a line stand where their parts in the line say. -/
theorem placesAll_row (l : Line) (sigiled : l.row.Sigiled) (above : List Label) :
    l.row.PlacesAll (l.node.label :: above) l.row.nodes := by
  cases l with
  | element f t ls =>
    exact append (append (plain (plain_indent f)) (placesAll_tag sigiled)) (plain (plain_leaf _))
  | simple f b =>
    refine append (append (plain (plain_indent f)) ?_) (plain (plain_leaf _))
    match b, sigiled with
    | .comment none, _ => exact plain nil
    | .comment (some words), _ => exact plain (plain_leaf words)
    | .attribute a, sigiled => exact placesAll_attribute rfl sigiled
    | .handler h, sigiled => exact placesAll_handler rfl sigiled
    | .text sigil content, _ =>
      exact cons (leaf (.ofSigil fun _ some => absurd rfl some)) (plain (plain_template content))
    | .mountingPoint sigil name, _ =>
      exact placesAll_front fun _ some => absurd rfl some

end

/-! ## 3. Files -/

/-- A line under others: the line, its own nodes, and the lines nested in it. -/
theorem Line.withAncestors_node (l : Line) (above : List Label) :
    l.node.withAncestors above = (above, l.node.label)
      :: (Rose.withAncestorsAll (l.node.label :: above) l.row.nodes
        ++ Rose.withAncestorsAll (l.node.label :: above) (nodesOf l.children)) := by
  cases l with
  | simple f b =>
    have none : Rose.withAncestorsAll ((Line.simple f b).node.label :: above) [] = [] := rfl
    rw [children, nodesOf, none, List.append_nil]
    rfl
  | element f t ls =>
    rw [← Rose.withAncestorsAll_append]
    rfl

/-- The spot is the node that stands under these. -/
structure Spot.StandsAt (s : Spot) (x : List Label × Label) : Prop where
  label : x.2 = s.label
  places : s.row.Places x.1 x.2

theorem Row.PlacesAll.forall₂ {r : Row} {above : List Label} {ts : List Node}
    (h : r.PlacesAll above ts) (owner : Option Tag) :
    List.Forall₂ Spot.StandsAt ((Rose.preorderAll ts).map (⟨·, r, owner⟩))
      (Rose.withAncestorsAll above ts) := by
  rw [← Rose.map_snd_withAncestorsAll above ts, List.map_map, List.forall₂_map_left_iff,
    List.forall₂_same]
  exact fun x hx => ⟨rfl, h x hx⟩

/-- The spots of lines are the nodes in them, in the same order. -/
theorem forall₂_spotsOf (owner : Option Tag) (ls : List Line) (above : List Label)
    (sigiled : ∀ l ∈ Line.withinAll ls, l.row.Sigiled) :
    List.Forall₂ Spot.StandsAt (Line.spotsOf owner ls)
      (Rose.withAncestorsAll above (Line.nodesOf ls)) := by
  have own (l : Line) (mem : l.row.Sigiled) (owner : Option Tag) : List.Forall₂ Spot.StandsAt
      ((l.node.label :: Rose.preorderAll l.row.nodes).map (⟨·, l.row, owner⟩))
      ((above, l.node.label) :: Rose.withAncestorsAll (l.node.label :: above) l.row.nodes) := by
    have part : l.node.label.role = .part := by cases l <;> rfl
    refine .cons ⟨rfl, ?_, ?_⟩ ((placesAll_row l mem above).forall₂ owner)
    · exact fun role => absurd (part.symm.trans role) (by decide)
    · exact fun role => absurd (part.symm.trans role) (by decide)
  match ls with
  | [] => exact .nil
  | l :: ls =>
    rw [Line.withinAll_cons, List.forall_mem_cons, List.forall_mem_append] at sigiled
    obtain ⟨here, nested, later⟩ := sigiled
    have others := forall₂_spotsOf owner ls above later
    rw [Line.nodesOf, Rose.withAncestorsAll, Line.withAncestors_node, Line.spotsOf]
    refine List.rel_append ?_ others
    rw [← List.cons_append]
    cases l with
    | simple f b =>
      have first := own _ here owner
      have none : Rose.withAncestorsAll ((Line.simple f b).node.label :: above)
          (Line.nodesOf (Line.simple f b).children) = [] := rfl
      rw [none, List.append_nil]
      exact first
    | element f t inner =>
      exact List.rel_append (own _ here owner) (forall₂_spotsOf (some t) inner _ nested)
termination_by sizeOf ls

/-- The node under the cursor is that of one spot, and stands where its part in the line says. -/
theorem exists_place {variant : Variant} {text : List Char} {p : Position} {s : Spot}
    (chosen : (SourceFile.ofText variant text).spotAt? p = some s) :
    ∃ (i : Nat) (above : List Label),
      IsLeast ((SourceFile.ofText variant text).ranksAt p) (s.label.rank i)
        ∧ ((SourceFile.ofText variant text).root.withAncestors [])[i + 1]? = some (above, s.label)
        ∧ s.row.Places above s.label := by
  obtain ⟨i, at_i, least⟩ := SourceFile.isLeast_of_spotAt? rfl chosen
  have stands := forall₂_spotsOf none (SourceFile.ofText variant text).lines
    [(SourceFile.ofText variant text).root.label] (fun l hl => sigiled_of_mem hl)
  obtain ⟨length, place⟩ := List.forall₂_iff_get.mp stands
  obtain ⟨hi, rfl⟩ := List.getElem?_eq_some_iff.mp at_i
  obtain ⟨label, places⟩ := place i hi (length ▸ hi)
  refine ⟨i, _, least, ?_, label ▸ places⟩
  have under (file : SourceFile) : (file.root.withAncestors [])[i + 1]?
      = (Rose.withAncestorsAll [file.root.label]
        (Line.nodesOf file.lines ++ [file.endOfFile.node .part]))[i]? := rfl
  rw [under, Rose.withAncestorsAll_append, List.getElem?_append_left (length ▸ hi),
    List.getElem?_eq_getElem (length ▸ hi)]
  exact congrArg some (Prod.ext rfl label)

/-- The host is asked for something only at the sigil of a line that it knows about. -/
theorem SourceFile.spot_of_targetAt? {file : SourceFile} {p : Position} {target : Target}
    (asks : file.targetAt? p = some target) : ∃ s, file.spotAt? p = some s
      ∧ s.label.role = .sigil ∧ s.row.target? s.ownerName? = some target := by
  unfold targetAt? at asks
  split at asks
  · obtain ⟨s, chosen, asks⟩ := Option.bind_eq_some_iff.mp asks
    unfold Spot.target? at asks
    split at asks
    · next sigil => exact ⟨s, chosen, sigil, asks⟩
    · cases asks
  · cases asks

end OffsideMarkup
