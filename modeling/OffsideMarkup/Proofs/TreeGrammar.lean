/-
OffsideMarkup.Proofs.TreeGrammar — the grammar of trees.

A node is a label with nodes under it. Nothing in that says that the tag of an element is a tag, or
that there is a dot between two items of a chain. Whoever looks at a tree relies on it all the same,
and has a way out for nodes it does not expect. In the types of a file (`Tree.Basic`) other nodes
cannot be written down. Here the same is said of the nodes themselves, so no way out is ever taken.

The grammar says for each kind of composite node which nodes may be its children, and in which
order: a language of nodes, put together from single nodes by union, concatenation and options. A
leaf that may be missing is `IsExpected`; any other leaf is there (`IsToken`).

Such a tree can be entered at any node. A node that was found by its kind has the form of its kind
(`formed_file`), so that a search through the tree knows as much as a walk down from the root.
-/
import Mathlib.Computability.Language
import OffsideMarkup.Proofs.OffsideStack
import OffsideMarkup.Proofs.Tiling
import OffsideMarkup.Tree.Query

namespace OffsideMarkup

/-! ## 1. The grammar -/

namespace TreeGrammar

/-- One node. -/
def one (p : Node → Prop) : Language Node := {w | ∃ n, w = [n] ∧ p n}

def opt (l : Language Node) : Language Node := 1 + l

def many (p : Node → Prop) : Language Node := {w | ∀ n ∈ w, p n}

/-- A leaf of a kind, which may be missing. -/
structure IsExpected (k : Kind) (n : Node) : Prop where
  leaf : n.label.isLeaf = true
  kind : n.label.kind = k
  bare : n.children = []

/-- A leaf of a kind that is there. -/
structure IsToken (k : Kind) (n : Node) : Prop extends IsExpected k n where
  present : n.label.missing = false

/-- A name, or a text without holes. -/
def IsLiteral : Node → Prop := IsExpected .literal

/-- A piece of text with something in it. -/
structure IsWords (n : Node) : Prop extends IsToken .literal n where
  some_text : Node.source n ≠ []

/-- A composite node of a kind with these children. -/
structure IsComposite (k : Kind) (parts : Language Node) (n : Node) : Prop where
  inner : n.label.isLeaf = false
  kind : n.label.kind = k
  present : n.label.missing = false
  parts : n.children ∈ parts

/-- Items with dots between them: an odd number of nodes, of which the first, the third and so on
are items, and those in between are dots. -/
structure IsDotted (item : Node → Prop) (w : List Node) : Prop where
  odd : w.length % 2 = 1
  items : ∀ n ∈ NumberedTree.everySecond w, item n
  dots : ∀ n ∈ NumberedTree.everySecond w.tail, IsToken .dot n

def IsChain (item : Node → Prop) : Node → Prop := IsComposite .chain {w | IsDotted item w}

def IsHole : Node → Prop :=
  IsComposite .mustache
    (one (IsToken .mustacheOpen)
      * (one (IsChain IsLiteral)
        * (opt (one (IsToken .equals) * one IsLiteral) * one (IsExpected .mustacheClose))))

/-- Holes and pieces of text, of which no two stand side by side. -/
structure IsText (w : List Node) : Prop where
  pieces : ∀ n ∈ w, IsHole n ∨ IsWords n
  apart : w.IsChain fun m n => ¬(m.label.kind = .literal ∧ n.label.kind = .literal)

def IsTemplate : Node → Prop := IsComposite .template {w | IsText w}

/-- The value of an attribute or a property. -/
def IsValue (n : Node) : Prop := IsHole n ∨ IsTemplate n

def IsTag : Node → Prop :=
  IsComposite .tag
    (one (IsToken .greaterThan)
      * (one IsLiteral
        * (opt (one (IsToken .dot) * one (IsChain IsTemplate))
          * opt (one (IsToken .hashSign) * one IsLiteral))))

def attributeForm : Language Node :=
  one (IsToken .hashSign) * (one IsLiteral * opt (one (IsToken .equals) * one IsValue))

def propertyForm : Language Node :=
  one (IsToken .percentSign)
    * (one IsLiteral
      * (opt (one (IsToken .atSign) * one IsLiteral) * opt (one (IsToken .equals) * one IsValue)))

def handlerForm : Language Node :=
  one (IsToken .atSign)
    * (one IsLiteral
      * (opt (one (IsToken .dot) * one (IsChain IsLiteral))
        * (one (IsExpected .equals)
          * (one IsLiteral * opt (one (IsToken .colon) * one IsTemplate)))))

/-- What a line of a kind declares. -/
def declared : Kind → Language Node
  | .commentLine => opt (one (IsToken .comment) + one IsWords)
  | .element => one IsTag
  | .attribute => attributeForm + propertyForm
  | .handler => handlerForm
  | .textLine => (one (IsToken .dot) + one (IsToken .bar)) * one IsTemplate
  | .mountingPoint => (one (IsToken .plus) + one (IsToken .minus)) * one IsLiteral
  | _ => 0

/-- The nodes of a line of a kind that are not lines themselves. -/
def ofLine (k : Kind) : Language Node :=
  opt (one (IsToken .indentation))
    * (declared k * (one (IsToken .lineBreak) + one (IsToken .endOfText)))

/-- A line. Only under an element there are lines. -/
inductive IsLine : Node → Prop
  | line {n : Node} {own lines : List Node} (inner : n.label.isLine = true)
      (present : n.label.missing = false) (parts : n.children = own ++ lines)
      (form : own ∈ ofLine n.label.kind) (element : lines ≠ [] → n.label.kind = .element)
      (nested : ∀ m ∈ lines, IsLine m) : IsLine n

/-- Lines, and the end of the text. -/
def IsFile : Node → Prop := IsComposite .file (many IsLine * one (IsToken .endOfText))

/-! ## 2. Words of the grammar -/

variable {k : Kind} {p : Node → Prop} {l : Language Node} {n : Node} {ts : List Node}

theorem mem_one_iff : [n] ∈ one p ↔ p n := by
  constructor
  · rintro ⟨m, here, h⟩
    rwa [List.singleton_inj.mp here]
  · exact fun h => ⟨n, rfl, h⟩

theorem mem_opt (h : ts ∈ l) : ts ∈ opt l := .inr h

theorem nil_mem_opt (l : Language Node) : [] ∈ opt l := .inl rfl

theorem isExpected_node {leaf : Leaf} (h : leaf.kind = k) (role : Role) :
    IsExpected k (leaf.node role) := ⟨rfl, h, rfl⟩

theorem isLiteral_node {leaf : Leaf} (h : leaf.kind = .literal) (role : Role) :
    IsLiteral (leaf.node role) := isExpected_node h role

theorem isToken_ofToken {t : Token} (h : t.kind = k) (role : Role) :
    IsToken k ((Leaf.ofToken t).node role) := ⟨isExpected_node h role, rfl⟩

theorem isComposite_compose (h : ts ∈ l) (start : Location) (level : Option Nat) :
    IsComposite k l (Node.compose k start ts level) := ⟨rfl, rfl, rfl, h⟩

/-- A literal that opens with a token with characters. -/
theorem isWords_literal {t : Token} (h : t.source ≠ []) (here : Location) (later : List Token)
    (role : Role) : IsWords ((Leaf.literal here (t :: later)).node role) := by
  refine ⟨⟨⟨rfl, rfl, rfl⟩, rfl⟩, ?_⟩
  rw [Node.source_leaf, Leaf.literal, List.flatMap_cons]
  exact fun e => h (List.append_eq_nil_iff.mp e).1

theorem IsText.nil : IsText [] := ⟨by simp, .nil⟩

theorem IsText.hole (h : IsHole n) (text : IsText ts) : IsText (n :: ts) := by
  refine ⟨List.forall_mem_cons.mpr ⟨.inl h, text.pieces⟩, List.isChain_cons.mpr ⟨?_, text.apart⟩⟩
  rintro m - ⟨literal, -⟩
  exact absurd (h.kind.symm.trans literal) (by decide)

/-- Words go in front of a hole, or stand last. -/
theorem IsText.words (h : IsWords n) (text : IsText ts)
    (next : ∀ m ∈ ts.head?, m.label.kind = .mustache) : IsText (n :: ts) := by
  refine ⟨List.forall_mem_cons.mpr ⟨.inr h, text.pieces⟩, List.isChain_cons.mpr ⟨?_, text.apart⟩⟩
  rintro m hm ⟨-, literal⟩
  exact absurd ((next m hm).symm.trans literal) (by decide)

theorem everySecond_cons {α : Type} (a : α) (w : List α) :
    NumberedTree.everySecond (a :: w) = a :: NumberedTree.everySecond w.tail := by
  cases w <;> rfl

theorem mem_everySecond {α : Type} {a : α} {w : List α} (h : a ∈ w) :
    a ∈ NumberedTree.everySecond w ∨ a ∈ NumberedTree.everySecond w.tail := by
  induction w with
  | nil => simp at h
  | cons b w ih =>
    rw [everySecond_cons, List.mem_cons, List.tail_cons]
    rcases List.mem_cons.mp h with rfl | later
    · exact .inl (.inl rfl)
    · rcases ih later with h | h
      · exact .inr h
      · exact .inl (.inr h)

section

variable {α : Type} (first : α → Node) (second : α → Node)

theorem everySecond_pairs (ps : List α) :
    NumberedTree.everySecond (ps.flatMap fun a => [first a, second a]) = ps.map first := by
  induction ps with
  | nil => rfl
  | cons a ps ih => simpa [everySecond_cons] using ih

theorem everySecond_cons_pairs (n : Node) (ps : List α) :
    NumberedTree.everySecond (n :: ps.flatMap fun a => [first a, second a])
      = n :: ps.map second := by
  induction ps generalizing n with
  | nil => rfl
  | cons a ps ih => simpa [everySecond_cons] using ih (second a)

theorem length_pairs (ps : List α) :
    (ps.flatMap fun a => [first a, second a]).length = 2 * ps.length := by
  simp [Nat.mul_comm]

end

/-- The nodes of a chain are its items, with dots between them. -/
theorem isDotted_nodes {α : Type} {c : Chain α} {role : Role} {item : α → Node}
    (head : p (item c.head))
    (tail : ∀ a ∈ c.tail, IsToken .dot (a.1.node role) ∧ p (item a.2)) :
    IsDotted p (c.nodes role item) where
  odd := by
    rw [Chain.nodes, List.length_cons, length_pairs]
    omega
  items := by
    rw [Chain.nodes, everySecond_cons_pairs, List.forall_mem_cons, List.forall_mem_map]
    exact ⟨head, fun a ha => (tail a ha).2⟩
  dots := by
    rw [Chain.nodes, List.tail_cons, everySecond_pairs, List.forall_mem_map]
    exact fun a ha => (tail a ha).1

/-! ## 3. Every node has the form of its kind -/

/-- The form of a node, by its kind. The items of a chain are all templates, or all literals. -/
def HasForm (n : Node) : Prop :=
  match n.label.kind with
  | .file => IsFile n
  | .commentLine | .element | .attribute | .handler | .textLine | .mountingPoint => IsLine n
  | .tag => IsTag n
  | .template => IsTemplate n
  | .mustache => IsHole n
  | .chain => IsChain IsTemplate n ∨ IsChain IsLiteral n
  | k => IsExpected k n

/-- A node and all nodes under it have the forms of their kinds. -/
def Formed (n : Node) : Prop := ∀ m ∈ n.subtrees, HasForm m

theorem formed_of_children (own : HasForm n) (under : ∀ m ∈ n.children, Formed m) : Formed n := by
  cases n with
  | node label ts =>
    intro m hm
    rcases Rose.mem_subtrees_node.mp hm with rfl | ⟨u, hu, hm⟩
    · exact own
    · exact under u hu m hm

theorem formed_expected (h : IsExpected k n) (leaf : k.index ≤ Kind.literal.index) : Formed n := by
  refine formed_of_children ?_ (by simp [h.bare])
  rw [HasForm, h.kind]
  cases k <;> first | exact h | exact absurd leaf (by decide)

/-- All nodes in the words of a language are formed. -/
def OfFormed (l : Language Node) : Prop := ∀ w ∈ l, ∀ n ∈ w, Formed n

theorem ofFormed_one (h : ∀ n, p n → Formed n) : OfFormed (one p) := by
  rintro w ⟨n, rfl, is⟩
  simpa using h n is

theorem ofFormed_expected (k : Kind) (leaf : k.index ≤ Kind.literal.index) :
    OfFormed (one (IsExpected k)) := ofFormed_one fun _ h => formed_expected h leaf

theorem ofFormed_token (k : Kind) (leaf : k.index ≤ Kind.literal.index) :
    OfFormed (one (IsToken k)) := ofFormed_one fun _ h => formed_expected h.toIsExpected leaf

theorem ofFormed_literal : OfFormed (one IsLiteral) := ofFormed_expected .literal (by decide)

theorem OfFormed.mul {l' : Language Node} (h : OfFormed l) (h' : OfFormed l') :
    OfFormed (l * l') := by
  intro w hw
  obtain ⟨u, hu, v, hv, rfl⟩ := Language.mem_mul.mp hw
  exact List.forall_mem_append.mpr ⟨h u hu, h' v hv⟩

theorem OfFormed.add {l' : Language Node} (h : OfFormed l) (h' : OfFormed l') :
    OfFormed (l + l') := by
  rintro w (hw | hw)
  · exact h w hw
  · exact h' w hw

theorem OfFormed.opt (h : OfFormed l) : OfFormed (opt l) := by
  rintro w (⟨rfl⟩ | hw)
  · simp
  · exact h w hw

/-- An optional part with a token in front. -/
theorem OfFormed.behind (h : OfFormed l) (k : Kind) (leaf : k.index ≤ Kind.literal.index) :
    OfFormed (TreeGrammar.opt (one (IsToken k) * l)) := ((ofFormed_token k leaf).mul h).opt

theorem ofFormed_many (h : ∀ n, p n → Formed n) : OfFormed (many p) :=
  fun _ hw n hn => h n (hw n hn)

/-- What has the form of its kind is formed if the children are. -/
theorem IsComposite.formed (h : IsComposite k l n) (own : HasForm n) (under : OfFormed l) :
    Formed n := formed_of_children own (under _ h.parts)

theorem formed_chain (h : IsChain p n) (items : ∀ m, p m → Formed m) (own : HasForm n) :
    Formed n := by
  refine IsComposite.formed h own ?_
  intro w dotted m hm
  rcases mem_everySecond hm with hm | hm
  · exact items m (dotted.items m hm)
  · exact formed_expected (dotted.dots m hm).toIsExpected (by decide)

theorem formed_chain_literal (h : IsChain IsLiteral n) : Formed n := by
  refine formed_chain h (fun m hm => formed_expected hm (by decide)) ?_
  rw [HasForm, IsComposite.kind h]
  exact .inr h

theorem formed_hole (h : IsHole n) : Formed n := by
  refine IsComposite.formed h ?_ ?_
  · rw [HasForm, IsComposite.kind h]
    exact h
  · have opening := ofFormed_token .mustacheOpen (by decide)
    have path := ofFormed_one fun _ => formed_chain_literal
    have fallback := ofFormed_literal.behind .equals (by decide)
    have closing := ofFormed_expected .mustacheClose (by decide)
    exact opening.mul (path.mul (fallback.mul closing))

theorem formed_template (h : IsTemplate n) : Formed n := by
  refine IsComposite.formed h ?_ ?_
  · rw [HasForm, IsComposite.kind h]
    exact h
  · intro w text m hm
    rcases text.pieces m hm with hole | words
    · exact formed_hole hole
    · exact formed_expected words.toIsExpected (by decide)

theorem formed_chain_template (h : IsChain IsTemplate n) : Formed n := by
  refine formed_chain h (fun _ => formed_template) ?_
  rw [HasForm, IsComposite.kind h]
  exact .inl h

theorem formed_value (h : IsValue n) : Formed n := h.elim formed_hole formed_template

theorem formed_tag (h : IsTag n) : Formed n := by
  refine IsComposite.formed h ?_ ?_
  · rw [HasForm, IsComposite.kind h]
    exact h
  · have sigil := ofFormed_token .greaterThan (by decide)
    have classes := (ofFormed_one fun _ => formed_chain_template).behind .dot (by decide)
    have reference := ofFormed_literal.behind .hashSign (by decide)
    exact sigil.mul (ofFormed_literal.mul (classes.mul reference))

theorem ofFormed_declared (k : Kind) : OfFormed (declared k) := by
  have value := (ofFormed_one fun _ => formed_value).behind .equals (by decide)
  have template := ofFormed_one fun _ => formed_template
  match k with
  | .commentLine =>
    have comment := ofFormed_token .comment (by decide)
    have words := ofFormed_one fun m (hm : IsWords m) =>
      formed_expected hm.toIsExpected (by decide)
    exact (comment.add words).opt
  | .element => exact ofFormed_one fun _ => formed_tag
  | .attribute =>
    have hash := ofFormed_token .hashSign (by decide)
    have percent := ofFormed_token .percentSign (by decide)
    have trigger := ofFormed_literal.behind .atSign (by decide)
    exact (hash.mul (ofFormed_literal.mul value)).add
      (percent.mul (ofFormed_literal.mul (trigger.mul value)))
  | .handler =>
    have sigil := ofFormed_token .atSign (by decide)
    have modifiers := (ofFormed_one fun _ => formed_chain_literal).behind .dot (by decide)
    have equals := ofFormed_expected .equals (by decide)
    have parameter := template.behind .colon (by decide)
    exact sigil.mul (ofFormed_literal.mul
      (modifiers.mul (equals.mul (ofFormed_literal.mul parameter))))
  | .textLine =>
    exact ((ofFormed_token .dot (by decide)).add (ofFormed_token .bar (by decide))).mul template
  | .mountingPoint =>
    exact ((ofFormed_token .plus (by decide)).add (ofFormed_token .minus (by decide))).mul
      ofFormed_literal
  | .greaterThan | .hashSign | .percentSign | .atSign | .dot | .bar | .plus | .minus | .equals
  | .colon | .mustacheOpen | .mustacheClose | .textFragment | .indentation | .lineBreak
  | .comment | .endOfText | .unknown | .literal | .file | .tag | .template | .mustache
  | .chain => exact fun w hw => absurd hw (Language.notMem_zero w)

theorem formed_line (h : IsLine n) : Formed n := by
  induction h with
  | @line n own lines inner present parts form element nested ih =>
    refine formed_of_children ?_ ?_
    · have whole : IsLine n := .line inner present parts form element nested
      rw [HasForm]
      cases kind : n.label.kind <;>
        first | exact whole | simp [Label.isLine, kind, Kind.isLine] at inner
    · have indent := (ofFormed_token .indentation (by decide)).opt
      have ending := (ofFormed_token .lineBreak (by decide)).add
        (ofFormed_token .endOfText (by decide))
      have around := indent.mul ((ofFormed_declared n.label.kind).mul ending)
      rw [parts]
      exact List.forall_mem_append.mpr ⟨around own form, ih⟩

/-- Wherever a tree of the grammar is entered, the node has the form of its kind. -/
theorem formed_file (h : IsFile n) : Formed n := by
  refine IsComposite.formed h ?_ ?_
  · rw [HasForm, IsComposite.kind h]
    exact h
  · exact (ofFormed_many fun _ => formed_line).mul (ofFormed_token .endOfText (by decide))

end TreeGrammar

end OffsideMarkup
