/-
OffsideMarkup.Proofs.HighlightCover — the highlights cover the text, each character once.

Highlights are collected by their own walk over the syntax of a line, which has a meaning for each
field and could forget one. `places_body` and `places_tag` say that it does not: meanings aside, the
highlights of a line are the pieces of its leaves, all of them, in order.

The leaves of a line stand one behind the other and are the text of the line up to its end
(`Abreast`). A piece is a leaf without its leading space, so a character that is not space lies in
the piece of the leaf it belongs to, and in no other (`covered`, `placed`, `apart`).

The lines of a file are kept apart by their numbers, and what is sent to the editor, the distances
between the pieces, leads back to the pieces because these are in order
(`absolute_relative`). `highlights_cover` is about all highlights of a text.
-/
import OffsideMarkup.Editor.Analysis
import OffsideMarkup.Proofs.LineLocality
import OffsideMarkup.Proofs.ReaderAccount

namespace OffsideMarkup

/-! ## 1. Leaves -/

/-- The leaf that a label is of. -/
def Label.leaf? (l : Label) : Option Leaf :=
  l.source.map fun cs => ⟨l.kind, l.extent.start, cs, l.missing⟩

/-- The leaves under nodes side by side. -/
def leavesOf (ts : List Node) : List Leaf := (Rose.preorderAll ts).filterMap Label.leaf?

@[simp] theorem leavesOf_nil : leavesOf [] = [] := rfl

@[simp] theorem leavesOf_leaf (l : Leaf) (role : Role) : leavesOf [l.node role] = [l] := rfl

theorem leavesOf_append (ts us : List Node) :
    leavesOf (ts ++ us) = leavesOf ts ++ leavesOf us := by
  rw [leavesOf, Rose.preorderAll_append, List.filterMap_append]
  rfl

theorem leavesOf_cons (t : Node) (ts : List Node) :
    leavesOf (t :: ts) = leavesOf [t] ++ leavesOf ts := leavesOf_append [t] ts

theorem leavesOf_compose (kind : Kind) (start : Location) (ts : List Node) (level : Option Nat) :
    leavesOf [Node.compose kind start ts level] = leavesOf ts := by
  rw [leavesOf, Rose.preorderAll, Rose.preorderAll, List.append_nil, Node.compose, Rose.preorder]
  rfl

/-- The text of leaves is the text of the nodes. -/
theorem flatMap_source_leavesOf (ts : List Node) :
    (leavesOf ts).flatMap Leaf.source = ts.flatMap Node.source := by
  have text (ls : List Label) : (ls.filterMap Label.leaf?).flatMap Leaf.source
      = ls.flatMap fun l => l.source.getD [] := by
    induction ls with
    | nil => rfl
    | cons l ls ih =>
      rw [List.flatMap_cons, ← ih, List.filterMap_cons, Label.leaf?]
      cases l.source <;> rfl
  rw [leavesOf, text, Rose.preorderAll_eq_flatMap, List.flatMap_assoc]
  rfl

/-! ## 2. Pieces -/

namespace Highlight

/-- Where a piece is. -/
structure Place where
  line : Nat
  column : Nat
  length : Nat
  deriving DecidableEq

def place (h : Highlight) : Place := ⟨h.line, h.column, h.length⟩

end Highlight

open Highlight

/-- The piece of a leaf, whatever it means. -/
def Leaf.places (l : Leaf) : List Place := (ofLeaf .comment l).map place

namespace Highlight

theorem places_leaf (meaning : Meaning) (l : Leaf) (role : Role) :
    (ofLeaf meaning l).map place = (leavesOf [l.node role]).flatMap Leaf.places := by
  rw [leavesOf_leaf, List.flatMap_singleton, Leaf.places, ofLeaf, ofLeaf]
  dsimp only
  split
  · rfl
  · split <;> rfl

section

variable {α : Type} {item : α → List Highlight} {node : α → Node}

theorem places_pair (h : ∀ a, (item a).map place = (leavesOf [node a]).flatMap Leaf.places)
    (role : Role) (p : Option (Leaf × α)) :
    (ofPair item p).map place
      = (leavesOf (pairNodes (·.node role) node p)).flatMap Leaf.places := by
  cases p with
  | none => rfl
  | some p =>
    rw [ofPair, pairNodes, leavesOf_cons, List.map_append, List.flatMap_append, h,
      places_leaf .operator p.1 role]

theorem places_chain (h : ∀ a, (item a).map place = (leavesOf [node a]).flatMap Leaf.places)
    (role : Role) (c : Chain α) :
    (ofChain item c).map place = (leavesOf [c.node role node]).flatMap Leaf.places := by
  rw [Chain.node, leavesOf_compose, Chain.nodes, leavesOf_cons, ofChain, List.map_append,
    List.flatMap_append, h]
  congr 1
  generalize c.tail = later
  induction later with
  | nil => rfl
  | cons p later ih =>
    rw [List.flatMap_cons, List.flatMap_cons, List.map_append, leavesOf_append,
      List.flatMap_append, ih, leavesOf_cons, List.map_append, List.flatMap_append, h,
      places_leaf .operator p.1 role]

end

theorem places_mustache (m : Mustache) :
    (ofMustache m).map place = (leavesOf [m.node]).flatMap Leaf.places := by
  rw [Mustache.node, leavesOf_compose, leavesOf_append, leavesOf_append, leavesOf_cons, ofMustache]
  simp only [List.map_append, List.flatMap_append]
  rw [places_leaf _ _ .part, places_leaf _ _ .part,
    places_chain (fun l => places_leaf _ l .part) .part,
    places_pair (fun l => places_leaf _ l .part) .part]

theorem places_template (meaning : Meaning) (t : Template) :
    (ofTemplate meaning t).map place = (leavesOf [t.node]).flatMap Leaf.places := by
  rw [Template.node, leavesOf_compose, ofTemplate]
  induction t.parts with
  | nil => rfl
  | cons p parts ih =>
    rw [List.flatMap_cons, List.map_append, ih, List.map_cons, leavesOf_cons, List.flatMap_append]
    cases p with
    | literal l => rw [TemplatePart.node, ← places_leaf meaning l .part]
    | mustache m => rw [TemplatePart.node, ← places_mustache m]

theorem places_value (v : Value) :
    (ofValue v).map place = (leavesOf [v.node]).flatMap Leaf.places := by
  cases v with
  | mustache m => exact places_mustache m
  | template t => exact places_template .string t

/-- Two leaves that come together or not at all. -/
theorem places_leaves (first second : Meaning) (role : Role) (p : Option (Leaf × Leaf)) :
    (p.elim [] fun (a, b) => ofLeaf first a ++ ofLeaf second b).map place
      = (leavesOf (pairNodes (·.node role) (·.node role) p)).flatMap Leaf.places := by
  cases p with
  | none => rfl
  | some p =>
    rw [pairNodes, leavesOf_cons, Option.elim_some, List.map_append, List.flatMap_append,
      places_leaf _ p.1 role, places_leaf _ p.2 role]

/-- The highlights of a tag are the pieces of its leaves. -/
theorem places_tag (t : Tag) :
    (ofTag t).map place = (leavesOf [t.node]).flatMap Leaf.places := by
  rw [Tag.node, leavesOf_compose, leavesOf_append, leavesOf_append, leavesOf_cons, ofTag]
  simp only [List.map_append, List.flatMap_append]
  rw [places_leaf _ _ .sigil, places_leaf _ _ .subject,
    places_pair (places_chain (places_template .className) .part) .part, places_leaves _ _ .part]

/-- The highlights of a line without lines under it are the pieces of its leaves. -/
theorem places_body (b : Body) :
    (ofBody b).map place = (leavesOf b.nodes).flatMap Leaf.places := by
  match b with
  | .comment none => rfl
  | .comment (some l) => exact places_leaf .comment l .part
  | .attribute a =>
    rw [Body.nodes, leavesOf_append, leavesOf_append, leavesOf_cons, ofBody]
    simp only [List.map_append, List.flatMap_append]
    rw [places_leaf _ _ .sigil, places_leaf _ _ .subject, places_leaves _ _ .trigger,
      places_pair places_value .part]
  | .handler h =>
    rw [Body.nodes, leavesOf_append, leavesOf_append, leavesOf_append, leavesOf_cons,
      leavesOf_cons (h.equals.node .part), ofBody]
    simp only [List.map_append, List.flatMap_append, List.append_assoc]
    rw [places_leaf _ _ .sigil, places_leaf _ _ .subject,
      places_pair (places_chain (fun l => places_leaf _ l .modifier) .modifier) .modifier,
      places_leaf _ _ .part, places_leaf _ _ .part, places_pair (places_template .string) .part]
  | .text sigil content =>
    rw [Body.nodes, leavesOf_cons, ofBody, List.map_append, List.flatMap_append,
      places_leaf _ _ .sigil, places_template]
  | .mountingPoint sigil name =>
    rw [Body.nodes, leavesOf_cons, ofBody]
    simp only [List.map_append, List.flatMap_append]
    rw [places_leaf _ _ .sigil, places_leaf _ _ .subject]

end Highlight

/-! ## 3. Leaves side by side -/

/-- Leaves stand one behind the other on a line, the first one here. -/
def Abreast (here : Location) : List Leaf → Prop
  | [] => True
  | l :: ls => l.start = here ∧ Abreast (here.after l.source) ls

theorem abreast_append {here : Location} {xs ys : List Leaf} :
    Abreast here (xs ++ ys)
      ↔ Abreast here xs ∧ Abreast (here.after (xs.flatMap Leaf.source)) ys := by
  induction xs generalizing here with
  | nil => exact ⟨fun h => ⟨trivial, h⟩, And.right⟩
  | cons l xs ih =>
    rw [List.cons_append, Abreast, Abreast, ih, List.flatMap_cons, Location.after_append, and_assoc]

namespace Node

/-- The node is a stretch of one line, with its leaves side by side. -/
structure Straight (t : Node) : Prop where
  abreast : Abreast t.label.extent.start (leavesOf [t])
  stop : t.label.extent.stop = t.label.extent.start.after (Node.source t)
  missing : ∀ l ∈ leavesOf [t], l.missing = true → l.source = []

theorem Tile.abreast {a b : Location} {ts : List Node} (h : Tile a b ts)
    (each : ∀ t ∈ ts, Straight t) :
    Abreast a (leavesOf ts) ∧ b = a.after (ts.flatMap Node.source) := by
  induction ts generalizing a with
  | nil =>
    rw [Tile] at h
    subst h
    exact ⟨trivial, rfl⟩
  | cons t ts ih =>
    obtain ⟨rfl, later⟩ := h
    have own := each t List.mem_cons_self
    obtain ⟨abreast, stop⟩ := ih later fun u hu => each u (List.mem_cons_of_mem t hu)
    rw [own.stop] at abreast stop
    rw [leavesOf_cons, abreast_append, flatMap_source_leavesOf, List.flatMap_singleton,
      List.flatMap_cons, Location.after_append]
    exact ⟨⟨own.abreast, abreast⟩, stop⟩

theorem mem_leavesOf {ts : List Node} {l : Leaf} :
    l ∈ leavesOf ts ↔ ∃ t ∈ ts, l ∈ leavesOf [t] := by
  induction ts with
  | nil => simp
  | cons t ts ih => rw [leavesOf_cons, List.mem_append, ih, List.exists_mem_cons_iff]

/-- A sound node without a line break among its leaves is a stretch of one line. -/
theorem Sound.straight {t : Node} (h : t.Sound) (advances : Everywhere Label.Advances [t])
    (inLine : ∀ l ∈ leavesOf [t], l.kind ≠ .lineBreak) : Straight t := by
  induction h with
  | @leaf l cs text offset units missing =>
    have own : leavesOf [Rose.node l []] = [⟨l.kind, l.extent.start, cs, l.missing⟩] := by
      simp [leavesOf, Rose.preorderAll, Rose.preorder, Label.leaf?, text]
    have kind : l.kind ≠ .lineBreak :=
      inLine ⟨l.kind, l.extent.start, cs, l.missing⟩ (by simp [own])
    refine ⟨?_, ?_, ?_⟩
    · rw [own]
      exact ⟨rfl, trivial⟩
    · rw [source_node, text, List.flatMap_nil, List.append_nil]
      exact (advances.label cs text).trans (if_neg kind)
    · rw [own, List.forall_mem_singleton]
      intro gone
      show cs = []
      rw [missing gone] at offset
      by_contra some_text
      have := byteLength_pos some_text
      omega
  | @composite l ts text missing tile parts ih =>
    have own : leavesOf [Rose.node l ts] = leavesOf ts := by
      simp [leavesOf, Rose.preorderAll, Rose.preorder, Label.leaf?, text]
    rw [own] at inLine
    have each : ∀ u ∈ ts, Straight u := fun u hu =>
      ih u hu (advances.under.of_mem hu) fun l hl => inLine l (mem_leavesOf.mpr ⟨u, hu, hl⟩)
    obtain ⟨abreast, stop⟩ := tile.abreast each
    refine ⟨?_, ?_, fun m hm => ?_⟩
    · rw [own]
      exact abreast
    · rw [source_node, text]
      exact stop
    · rw [own] at hm
      obtain ⟨u, hu, hm⟩ := mem_leavesOf.mp hm
      exact (each u hu).missing m hm

end Node

/-! ## 4. Pieces side by side -/

/-- A leaf inside a line that has a piece unless there is nothing but space in it. -/
structure Leaf.Plain (l : Leaf) : Prop where
  inLine : l.kind ≠ .lineBreak
  silent : l.missing = true ∨ isSilent l.kind = true → ∀ c ∈ l.source, isInlineSpace c = true

/-- The piece of a leaf is what is left of it without its leading space. -/
theorem Leaf.Plain.places {l : Leaf} (h : l.Plain) :
    l.places = if l.source.dropWhile isInlineSpace = [] then []
      else [⟨l.start.line, l.start.column + unitLength (l.source.takeWhile isInlineSpace),
        unitLength (l.source.dropWhile isInlineSpace)⟩] := by
  have stop : l.stop = l.start.after l.source := if_neg h.inLine
  have straight : l.extent.crossesLine = false := by
    rw [Extent.crossesLine, Leaf.extent, stop]
    exact bne_self_eq_false _
  have whole : l.extent.length = unitLength (l.source.takeWhile isInlineSpace)
      + unitLength (l.source.dropWhile isInlineSpace) := by
    rw [← unitLength_append, List.takeWhile_append_dropWhile, Extent.length, Leaf.extent, stop]
    exact Nat.add_sub_cancel_left ..
  have blank : min l.leadingWidth l.extent.length
      = unitLength (l.source.takeWhile isInlineSpace) := by
    rw [whole]
    exact Nat.min_eq_left (Nat.le_add_right ..)
  rw [Leaf.places, ofLeaf, straight, Bool.or_false]
  split
  · next quiet =>
    have space := h.silent (by simpa using quiet)
    rw [if_pos (List.dropWhile_eq_nil_iff.mpr space)]
    rfl
  · dsimp only
    rw [blank, whole, Nat.add_sub_cancel_left]
    simp only [unitLength_eq_zero]
    split <;> rfl

/-- A piece is in front of another one if it ends before that starts. -/
def Highlight.Place.Before (p q : Place) : Prop :=
  p.line < q.line ∨ p.line = q.line ∧ p.column + p.length ≤ q.column

/-- The piece reaches over a character of this width at this column of a line. -/
def Highlight.Place.covers (p : Place) (line column width : Nat) : Bool :=
  p.line == line && p.column ≤ column && column + width ≤ p.column + p.length

/-- A piece of a text that starts here, between two other parts of the text. -/
structure Highlight.Place.Cuts (p : Place) (here : Location) (text front piece back : List Char) :
    Prop where
  split : text = front ++ piece ++ back
  line : p.line = here.line
  column : p.column = here.column + unitLength front
  length : p.length = unitLength piece
  solid : ∃ c cs, piece = c :: cs ∧ isInlineSpace c = false

namespace Leaf.Plain

variable {l : Leaf} {p : Place}

/-- The piece of a leaf ends where the leaf does. -/
theorem cuts (h : l.Plain) (hp : p ∈ l.places) :
    ∃ front piece, p.Cuts l.start l.source front piece [] := by
  rw [h.places] at hp
  split at hp
  · exact absurd hp (by simp)
  · next some_text =>
    obtain rfl := List.mem_singleton.mp hp
    refine ⟨l.source.takeWhile isInlineSpace, l.source.dropWhile isInlineSpace, ?_, rfl, rfl, rfl,
      ?_⟩
    · rw [List.append_nil, List.takeWhile_append_dropWhile]
    · obtain ⟨c, cs, piece⟩ := List.exists_cons_of_ne_nil some_text
      refine ⟨c, cs, piece, ?_⟩
      have head := List.head_dropWhile_not isInlineSpace some_text
      simpa [piece] using head

/-- A character of a leaf that is not space stands in its piece. -/
theorem covered (h : l.Plain) {front back : List Char} {c : Char}
    (split : l.source = front ++ c :: back) (solid : isInlineSpace c = false) :
    l.places.countP (·.covers l.start.line (l.start.column + unitLength front) (unitWidth c))
      = 1 := by
  have stays : isInlineSpace c ≠ true := by simp [solid]
  have rest : l.source.dropWhile isInlineSpace
      = front.dropWhile isInlineSpace ++ c :: back := by
    rw [split, List.dropWhile_append]
    split
    · next space => rw [List.isEmpty_iff.mp space, List.dropWhile_cons_of_neg stays]; rfl
    · rfl
  have width : unitLength (l.source.takeWhile isInlineSpace)
      + unitLength (front.dropWhile isInlineSpace) = unitLength front := by
    have own : unitLength l.source = unitLength front + unitLength (c :: back) := by
      rw [split, unitLength_append]
    rw [← List.takeWhile_append_dropWhile (p := isInlineSpace) (l := l.source),
      unitLength_append, rest, unitLength_append] at own
    omega
  rw [h.places, if_neg (by rw [rest]; simp), List.countP_singleton, if_pos]
  simp only [Place.covers, BEq.rfl, Bool.true_and, Bool.and_eq_true, decide_eq_true_eq]
  rw [rest, unitLength_append, unitLength_cons]
  omega

end Leaf.Plain

/-! Now for leaves side by side. -/

section

variable {here : Location} {ls : List Leaf}

theorem Abreast.cuts (h : Abreast here ls) (plain : ∀ l ∈ ls, l.Plain) :
    ∀ p ∈ ls.flatMap Leaf.places, ∃ front piece back,
      p.Cuts here (ls.flatMap Leaf.source) front piece back := by
  induction ls generalizing here with
  | nil => simp
  | cons l ls ih =>
    obtain ⟨rfl, later⟩ := h
    obtain ⟨first, others⟩ := List.forall_mem_cons.mp plain
    intro p hp
    rw [List.flatMap_cons] at hp ⊢
    rcases List.mem_append.mp hp with hp | hp
    · obtain ⟨front, piece, cuts⟩ := first.cuts hp
      refine ⟨front, piece, ls.flatMap Leaf.source, ?_, cuts.line, cuts.column, cuts.length,
        cuts.solid⟩
      rw [cuts.split, List.append_nil]
    · obtain ⟨front, piece, back, cuts⟩ := ih later others p hp
      refine ⟨l.source ++ front, piece, back, ?_, cuts.line, ?_, cuts.length, cuts.solid⟩
      · rw [cuts.split, List.append_assoc, List.append_assoc, List.append_assoc]
      · rw [cuts.column, unitLength_append, ← Nat.add_assoc]
        rfl

/-- The piece of a leaf stops in front of what follows the leaf. -/
theorem Leaf.Plain.stop_le {l : Leaf} (h : l.Plain) {p : Place} (hp : p ∈ l.places) :
    p.column + p.length ≤ l.start.column + unitLength l.source := by
  obtain ⟨front, piece, cuts⟩ := h.cuts hp
  rw [cuts.column, cuts.length, cuts.split, unitLength_append, unitLength_append]
  omega

/-- Pieces do not overlap. -/
theorem Abreast.apart (h : Abreast here ls) (plain : ∀ l ∈ ls, l.Plain) :
    (ls.flatMap Leaf.places).Pairwise Place.Before := by
  induction ls generalizing here with
  | nil => exact .nil
  | cons l ls ih =>
    obtain ⟨rfl, later⟩ := h
    obtain ⟨first, others⟩ := List.forall_mem_cons.mp plain
    rw [List.flatMap_cons, List.pairwise_append]
    refine ⟨?_, ih later others, fun p hp q hq => .inr ?_⟩
    · rw [first.places]
      split
      · exact .nil
      · exact List.pairwise_singleton ..
    · obtain ⟨_, _, own⟩ := first.cuts hp
      obtain ⟨_, _, _, cuts⟩ := later.cuts others q hq
      refine ⟨own.line.trans cuts.line.symm, ?_⟩
      rw [cuts.column]
      exact Nat.le_trans (first.stop_le hp) (Nat.le_add_right ..)

/-- A character that is not space is covered once. -/
theorem Abreast.covered (h : Abreast here ls) (plain : ∀ l ∈ ls, l.Plain) {front back : List Char}
    {c : Char} (split : ls.flatMap Leaf.source = front ++ c :: back)
    (solid : isInlineSpace c = false) :
    (ls.flatMap Leaf.places).countP
        (·.covers here.line (here.column + unitLength front) (unitWidth c)) = 1 := by
  induction ls generalizing here front with
  | nil => exact absurd split (by simp)
  | cons l ls ih =>
    obtain ⟨rfl, later⟩ := h
    obtain ⟨first, others⟩ := List.forall_mem_cons.mp plain
    rw [List.flatMap_cons] at split
    rw [List.flatMap_cons, List.countP_append]
    have behind (more : List Char) (front' : front = l.source ++ more)
        (rest : ls.flatMap Leaf.source = more ++ c :: back) :
        l.places.countP (·.covers l.start.line (l.start.column + unitLength front) (unitWidth c))
          + (ls.flatMap Leaf.places).countP
            (·.covers l.start.line (l.start.column + unitLength front) (unitWidth c)) = 1 := by
      have none : l.places.countP (·.covers l.start.line
          (l.start.column + unitLength front) (unitWidth c)) = 0 := by
        refine List.countP_eq_zero.mpr fun p hp => ?_
        have stop := first.stop_le hp
        have width := unitWidth_pos c
        rw [front', unitLength_append]
        simp only [Place.covers, Bool.and_eq_true, decide_eq_true_eq]
        omega
      have one := ih later others rest
      rw [none, Nat.zero_add, front', unitLength_append, ← Nat.add_assoc]
      exact one
    rcases List.append_eq_append_iff.mp split with ⟨more, front', rest⟩ | ⟨more, own, rest⟩
    · exact behind more front' rest
    · cases more with
      | nil => exact behind [] (by rw [own, List.append_nil, List.append_nil]) rest.symm
      | cons d more =>
        obtain ⟨rfl, rfl⟩ := List.cons.inj rest
        have none : (ls.flatMap Leaf.places).countP (·.covers l.start.line
            (l.start.column + unitLength front) (unitWidth c)) = 0 := by
          refine List.countP_eq_zero.mpr fun p hp => ?_
          obtain ⟨_, _, _, cuts⟩ := later.cuts others p hp
          have column : l.start.column + unitLength l.source ≤ p.column := by
            rw [cuts.column]
            exact Nat.le_add_right ..
          have width := unitWidth_pos c
          rw [own, unitLength_append, unitLength_cons] at column
          simp only [Place.covers, Bool.and_eq_true, decide_eq_true_eq]
          omega
        rw [none, first.covered own solid]

end

/-! ## 5. Lines -/

/-- The highlights of a line itself. -/
def Row.highlights : Row → List Highlight
  | .simple _ b => ofBody b
  | .element _ t => ofTag t

/-- The highlights of a line of a text: each is a stretch of the line, they do not overlap, and a
character that is not space is covered once. -/
structure LineCover (k : Nat) (line : List Char) (hs : List Highlight) : Prop where
  stretch : ∀ h ∈ hs, h.line = k ∧ ∃ front piece back, line = front ++ piece ++ back
    ∧ h.column = unitLength front ∧ h.length = unitLength piece ∧ Unbroken piece
    ∧ ∃ c cs, piece = c :: cs ∧ isInlineSpace c = false
  order : hs.Pairwise fun a b => a.place.Before b.place
  once : ∀ front c back, line = front ++ c :: back → isInlineSpace c = false →
    isLineBreak c = false →
    hs.countP (·.place.covers k (unitLength front) (unitWidth c)) = 1

/-- What a reader gives has leaves of inner kinds only. -/
theorem account_isInner :
    Reader.Account fun _ _ ts => ∀ l ∈ leavesOf ts, l.kind.isInner = true where
  nil _ := by simp
  append h h' := by
    rw [leavesOf_append]
    exact List.forall_mem_append.mpr ⟨h, h'⟩
  compose h _ _ _ := by
    rw [leavesOf_compose]
    exact h
  present _ inner _ _ := by
    rw [leavesOf_leaf]
    exact List.forall_mem_singleton.mpr inner
  absent _ inner := by
    intro _ _ _ _
    rw [leavesOf_leaf]
    exact List.forall_mem_singleton.mpr inner

theorem isInner_content (l : TokenLine) :
    ∀ leaf ∈ leavesOf (Reader.content l.stop l.body).value.nodes, leaf.kind.isInner = true := by
  have accounted := Reader.accounted_content account_isInner l.stop l.body
  generalize (Reader.content l.stop l.body).findings = ds at accounted
  generalize (Reader.content l.stop l.body).value = c at accounted ⊢
  cases accounted with
  | rejected code start kind there => exact List.forall_mem_singleton.mpr (by rw [kind]; rfl)
  | related readable related => exact related

/-- An inner kind is neither silent nor that of a line break. -/
theorem Kind.isSilent_of_isInner {k : Kind} (h : k.isInner = true) :
    isSilent k = false ∧ k ≠ .lineBreak := by
  cases k <;> first | exact absurd h (by decide) | exact ⟨rfl, by decide⟩

/-- The nodes of a line in front of its end. -/
def TokenLine.nodesInFront (l : TokenLine) : List Node :=
  (l.indent.map Leaf.ofToken).toList.map (·.node .part)
    ++ (Reader.content l.stop l.body).value.nodes

theorem leavesOf_nodesInFront (l : TokenLine) : leavesOf l.nodesInFront
    = (l.indent.map Leaf.ofToken).toList
      ++ leavesOf (Reader.content l.stop l.body).value.nodes := by
  rw [TokenLine.nodesInFront, leavesOf_append]
  cases l.indent <;> rfl

section

variable {p e : Scanner} {l : TokenLine} (line : p.ReadsLine l e)

include line

/-- The indentation is space. -/
theorem inlineSpace_indent : ∀ leaf ∈ (l.indent.map Leaf.ofToken).toList,
    leaf.kind = .indentation ∧ ∀ c ∈ leaf.source, isInlineSpace c = true := by
  intro leaf hleaf
  obtain ⟨t, found, rfl⟩ := Option.map_eq_some_iff.mp (Option.mem_toList.mp hleaf)
  have source := line.source_indent
  have kind : l.indent = p.scan.indent? := line.indent
  rw [found] at source kind
  refine ⟨?_, fun c hc => ?_⟩
  · rw [Scanner.indent?] at kind
    split at kind
    · next is => rw [Option.some.inj kind]; exact is
    · exact absurd kind (by simp)
  · rw [Option.toList_some, List.flatMap_singleton] at source
    exact inlineSpace_takeWhile p.rest c (source ▸ hc)

theorem inLine_nodesInFront : ∀ leaf ∈ leavesOf l.nodesInFront, leaf.kind ≠ .lineBreak := by
  rw [leavesOf_nodesInFront, List.forall_mem_append]
  refine ⟨fun leaf hleaf => ?_, fun leaf hleaf =>
    (Kind.isSilent_of_isInner (isInner_content l leaf hleaf)).2⟩
  rw [(inlineSpace_indent line leaf hleaf).1]
  decide

theorem straight_nodesInFront : ∀ t ∈ l.nodesInFront, Node.Straight t := by
  intro t ht
  have advances : Everywhere Label.Advances l.nodesInFront := by
    have row := Everywhere.row kept_advances (Row.ofTokenLine l)
    rw [nodes_ofTokenLine] at row
    exact row.left
  exact ((fill_front line).sound t ht).straight (advances.of_mem ht) fun leaf hleaf =>
    inLine_nodesInFront line leaf (Node.mem_leavesOf.mpr ⟨t, ht, hleaf⟩)

/-- Leaves that have no piece are the indentation, and what is missing. -/
theorem plain_nodesInFront : ∀ leaf ∈ leavesOf l.nodesInFront, leaf.Plain := by
  intro leaf hleaf
  refine ⟨inLine_nodesInFront line leaf hleaf, fun quiet => ?_⟩
  rcases quiet with missing | silent
  · obtain ⟨t, ht, hleaf⟩ := Node.mem_leavesOf.mp hleaf
    rw [(straight_nodesInFront line t ht).missing leaf hleaf missing]
    simp
  · rw [leavesOf_nodesInFront] at hleaf
    rcases List.mem_append.mp hleaf with hleaf | hleaf
    · exact (inlineSpace_indent line leaf hleaf).2
    · rw [(Kind.isSilent_of_isInner (isInner_content l leaf hleaf)).1] at silent
      exact absurd silent (by decide)

/-- The highlights of a line are the pieces of its leaves, also with the indentation among them. -/
theorem places_row : (Row.ofTokenLine l).highlights.map place
    = (leavesOf l.nodesInFront).flatMap Leaf.places := by
  have silent : (l.indent.map Leaf.ofToken).toList.flatMap Leaf.places = [] := by
    rw [List.flatMap_eq_nil_iff]
    intro leaf hleaf
    rw [Leaf.places, ofLeaf, if_pos]
    · rfl
    · rw [(inlineSpace_indent line leaf hleaf).1, isSilent, Bool.or_true, Bool.true_or]
  rw [leavesOf_nodesInFront, List.flatMap_append, silent, List.nil_append, Row.ofTokenLine]
  cases (Reader.content l.stop l.body).value with
  | element tag => exact places_tag tag
  | simple body => exact places_body body

/-- The leaves of a line stand side by side from its start on, and are its text up to its end. -/
theorem abreast_nodesInFront : Abreast p.token.stop (leavesOf l.nodesInFront)
    ∧ (leavesOf l.nodesInFront).flatMap Leaf.source = l.front.flatMap Token.source := by
  refine ⟨((fill_front line).tile.abreast (straight_nodesInFront line)).1, ?_⟩
  rw [flatMap_source_leavesOf]
  exact (fill_front line).source

theorem covers_row {k : Nat} (number : p.token.stop.line = k) (column : p.token.stop.column = 0) :
    LineCover k l.source (Row.ofTokenLine l).highlights := by
  obtain ⟨abreast, source⟩ := abreast_nodesInFront line
  have plain := plain_nodesInFront line
  have places := places_row line
  refine ⟨fun h hh => ?_, ?_, fun front c back split solid inner => ?_⟩
  · have mem : h.place ∈ (leavesOf l.nodesInFront).flatMap Leaf.places :=
      places ▸ List.mem_map_of_mem hh
    obtain ⟨front, piece, back, cuts⟩ := abreast.cuts plain h.place mem
    have whole := cuts.split
    rw [source] at whole
    have unbroken : Unbroken piece := by
      have line := line.passes.unbroken line.inLine.inner
      rw [whole, unbroken_append, unbroken_append] at line
      exact line.1.2
    refine ⟨cuts.line.trans number, front, piece, back ++ l.stop.source, ?_, ?_, cuts.length,
      unbroken, cuts.solid⟩
    · rw [TokenLine.source, whole, List.append_assoc]
    · exact cuts.column.trans (by rw [column, Nat.zero_add])
  · rw [← List.pairwise_map, places]
    exact abreast.apart plain
  · have notBehind : c ∉ l.stop.source := by
      intro mem
      have space := line.isSpace_stop c mem
      rw [isSpace, solid, inner] at space
      exact absurd space (by decide)
    have here : ∃ back', l.front.flatMap Token.source = front ++ c :: back' := by
      rw [TokenLine.source] at split
      rcases List.append_eq_append_iff.mp split with ⟨more, -, rest⟩ | ⟨more, own, rest⟩
      · exact absurd (by rw [rest]; simp) notBehind
      · cases more with
        | nil => exact absurd (by rw [← List.nil_append l.stop.source, ← rest]; simp) notBehind
        | cons d more =>
          obtain ⟨rfl, -⟩ := List.cons.inj rest
          exact ⟨more, own⟩
    obtain ⟨back', own⟩ := here
    have one := abreast.covered plain (source.trans own) solid
    rw [number, column, Nat.zero_add, ← places, List.countP_map] at one
    exact one

end

/-! ## 6. Files -/

/-- Nesting leaves the highlights in the order of the lines. -/
theorem highlightsOf_eq (ls : List Line) :
    Line.highlightsOf ls = ((Line.withinAll ls).map Line.row).flatMap Row.highlights := by
  match ls with
  | [] => rfl
  | .simple f b :: ls =>
    rw [Line.highlightsOf, Line.highlights, highlightsOf_eq ls, Line.withinAll, Line.within]
    rfl
  | .element f t inner :: ls =>
    rw [Line.highlightsOf, Line.highlights, highlightsOf_eq ls, highlightsOf_eq inner,
      Line.withinAll, Line.within, List.map_append, List.map_cons, List.flatMap_append,
      List.flatMap_cons]
    rfl
termination_by sizeOf ls

theorem highlights_ofText (variant : Variant) (text : List Char) :
    (SourceFile.ofText variant text).highlights
      = (TokenLine.ofText text).flatMap fun l => (Row.ofTokenLine l).highlights := by
  rw [SourceFile.highlights, highlightsOf_eq, map_row_withinAll_lines, Row.ofText,
    List.flatMap_map]

/-- Pieces in order are found again from their distances. -/
theorem absoluteFrom_relativeFrom {line column : Nat} {hs : List Highlight}
    (ahead : ∀ h ∈ hs, line < h.line ∨ line = h.line ∧ column ≤ h.column)
    (order : hs.Pairwise fun a b => a.place.Before b.place) :
    absoluteFrom line column (relativeFrom line column hs) = hs := by
  induction hs generalizing line column with
  | nil => rfl
  | cons h hs ih =>
    rw [List.pairwise_cons] at order
    have behind : ∀ g ∈ hs, h.line < g.line ∨ h.line = g.line ∧ h.column ≤ g.column :=
      fun g hg => (order.1 g hg).imp id fun same =>
        ⟨same.1, Nat.le_trans (Nat.le_add_right ..) same.2⟩
    have here := ahead h List.mem_cons_self
    have lineBack : line + (h.line - line) = h.line := by omega
    have columnBack : (if h.line - line = 0
        then column + (if h.line - line = 0 then h.column - column else h.column)
        else if h.line - line = 0 then h.column - column else h.column) = h.column := by
      split <;> omega
    rw [relativeFrom, absoluteFrom]
    dsimp only
    rw [lineBack, columnBack, ih behind order.2]

theorem absolute_relative {hs : List Highlight}
    (order : hs.Pairwise fun a b => a.place.Before b.place) :
    absolute (relative hs) = hs := by
  refine absoluteFrom_relativeFrom (fun h _ => ?_) order
  rcases Nat.eq_zero_or_pos h.line with zero | pos
  · exact .inr ⟨zero.symm, Nat.zero_le _⟩
  · exact .inl pos

/-- Each line of a text is covered by its own highlights. -/
theorem covers_line {text : List Char} {k : Nat} {l : TokenLine}
    (at_k : (TokenLine.ofText text)[k]? = some l) :
    LineCover k l.source (Row.ofTokenLine l).highlights := by
  obtain ⟨q, e, line, stop⟩ := exists_readsLine at_k
  exact covers_row line (congrArg Location.line stop) (congrArg Location.column stop)

/-- The highlights of a text are in order: those of a line are, and the lines are. -/
theorem pairwise_highlights (variant : Variant) (text : List Char) :
    (SourceFile.ofText variant text).highlights.Pairwise fun a b => a.place.Before b.place := by
  rw [highlights_ofText, List.pairwise_flatMap]
  constructor
  · intro l hl
    obtain ⟨k, at_k⟩ := List.mem_iff_getElem?.mp hl
    exact (covers_line at_k).order
  · rw [List.pairwise_iff_getElem]
    intro i j hi hj less a ha b hb
    refine .inl ?_
    have first := ((covers_line (List.getElem?_eq_getElem hi)).stretch a ha).1
    have second := ((covers_line (List.getElem?_eq_getElem hj)).stretch b hb).1
    show a.line < b.line
    omega

/-- The highlights of a text, as they are sent when nothing is cancelled, cover it: every character
that is neither space nor part of a line break lies in exactly one of them. Each is a stretch of one
line inside its break, starts with a character that is not space and is not empty, and no two
overlap. -/
theorem highlights_cover (variant : Variant) (text : List Char) :
    (∀ a : Analysis, a.tree = .ofText variant text → ∃ rs, a.highlightsUnless false = .ok rs
        ∧ Highlight.absolute rs = (SourceFile.ofText variant text).highlights)
      ∧ (∀ (k : Nat) (front : List Char) (c : Char) (back : List Char),
        (physicalLines text)[k]? = some (front ++ c :: back) →
        isInlineSpace c = false → isLineBreak c = false →
        (SourceFile.ofText variant text).highlights.countP
          (·.place.covers k (unitLength front) (unitWidth c)) = 1)
      ∧ (∀ h ∈ (SourceFile.ofText variant text).highlights, ∃ front piece back,
        (physicalLines text)[h.line]? = some (front ++ piece ++ back)
          ∧ h.column = unitLength front ∧ h.length = unitLength piece ∧ 0 < h.length
          ∧ Unbroken piece ∧ ∃ c cs, piece = c :: cs ∧ isInlineSpace c = false)
      ∧ (SourceFile.ofText variant text).highlights.Pairwise
        (fun a b => a.line < b.line ∨ a.line = b.line ∧ a.column + a.length ≤ b.column) := by
  obtain ⟨f, reads, -⟩ := Scanner.reads_ofText text
  have lines : physicalLines text = (TokenLine.ofText text).map TokenLine.source :=
    reads.physicalLines
  have numbered : ∀ (k : Nat) (l : TokenLine), (TokenLine.ofText text)[k]? = some l →
      ∀ h ∈ (Row.ofTokenLine l).highlights, h.line = 0 + k := fun k l at_k h hh =>
    ((covers_line at_k).stretch h hh).1.trans (Nat.zero_add k).symm
  have order := pairwise_highlights variant text
  refine ⟨fun a tree => ⟨_, ?_, absolute_relative order⟩, ?_, ?_, order⟩
  · rw [Analysis.highlightsUnless, Analysis.lineByLine, tree]
    rfl
  · intro k front c back here solid inner
    rw [lines, List.getElem?_map] at here
    obtain ⟨l, at_k, split⟩ := Option.map_eq_some_iff.mp here
    have one := (covers_line at_k).once front c back split solid inner
    have on := filter_flatMap_of_number numbered (Nat.zero_add k).symm
    rw [at_k, Option.map_some, Option.getD_some, ← highlights_ofText variant] at on
    rw [← on, List.countP_filter] at one
    rw [← one]
    refine List.countP_congr fun h _ => ?_
    simp only [Place.covers, Highlight.place, Bool.and_eq_true, beq_iff_eq]
    tauto
  · intro h hh
    rw [highlights_ofText] at hh
    obtain ⟨l, hl, hh⟩ := List.mem_flatMap.mp hh
    obtain ⟨k, at_k⟩ := List.mem_iff_getElem?.mp hl
    obtain ⟨number, front, piece, back, split, column, length, unbroken, c, cs, some_text, solid⟩ :=
      (covers_line at_k).stretch h hh
    refine ⟨front, piece, back, ?_, column, length, ?_, unbroken, c, cs, some_text, solid⟩
    · rw [lines, List.getElem?_map, number, at_k, ← split]
      rfl
    · have width := unitWidth_pos c
      rw [length, some_text, unitLength_cons]
      omega

end OffsideMarkup
