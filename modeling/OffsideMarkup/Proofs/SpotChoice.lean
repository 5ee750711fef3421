/-
OffsideMarkup.Proofs.SpotChoice — the spot at a position is the least one that reaches it.

The choice is one pass over all nodes that keeps the best so far. Here it is stated without the pass.
Each node has a rank: leaves before composite nodes, then by length, then by the place in document
order. Of the nodes that a cursor at the position reaches, the chosen one has the least rank.

* `Label.weight`, `Label.rank` — the two orders. `Spot.beats` compares weights, and among equal weights
  the pass keeps the first one (`Spot.best?_split`).
* `descendants_root` — the spots are the nodes under the root, in document order, but for the end of
  the text, which is never reached.
* `isLeast_of_spotAt?`, `spotAt?_of_isLeast` — the choice.
* `pairwise_before` — leaves with text in them lie side by side, line for line. So a cursor inside such
  a leaf reaches no other, and the leaf is chosen (`spotAt?_inside`).
-/
import Mathlib.Data.Bool.Basic
import Mathlib.Data.Prod.Lex
import Mathlib.Order.Bounds.Basic
import OffsideMarkup.Proofs.Cursor
import OffsideMarkup.Proofs.FindingPlaces

namespace OffsideMarkup

/-! ## 1. Ranks -/

namespace Label

/-- Leaves are lighter than composite nodes, and short nodes lighter than long ones. -/
def weight (l : Label) : Bool ×ₗ Nat := toLex (!l.isLeaf, l.extent.length)

/-- Of nodes with one weight the first in document order comes first. -/
def rank (i : Nat) (l : Label) : (Bool ×ₗ Nat) ×ₗ Nat := toLex (l.weight, i)

theorem weight_lt_iff {l m : Label} : l.weight < m.weight ↔
    (l.isLeaf = true ∧ m.isLeaf = false)
      ∨ l.isLeaf = m.isLeaf ∧ l.extent.length < m.extent.length := by
  rw [weight, weight, Prod.Lex.toLex_lt_toLex]
  cases l.isLeaf <;> cases m.isLeaf <;> simp

theorem rank_le_iff {i j : Nat} {l m : Label} :
    l.rank i ≤ m.rank j ↔ l.weight < m.weight ∨ l.weight = m.weight ∧ i ≤ j := by
  rw [rank, rank, Prod.Lex.toLex_le_toLex]

/-- No two places have one rank. -/
theorem index_eq_of_rank {i j : Nat} {l m : Label} (h : l.rank i = m.rank j) : i = j :=
  (Prod.mk.inj (toLex.injective h)).2

end Label

namespace Spot

theorem beats_iff {s t : Spot} : s.beats t ↔ s.label.weight < t.label.weight := by
  rw [Label.weight_lt_iff]
  simp [beats]

theorem best?_eq_none {ss : List Spot} : best? ss = none ↔ ss = [] := by
  rcases List.eq_nil_or_concat' ss with rfl | ⟨ss, s, rfl⟩
  · simp [best?]
  · simp [best?_concat]

/-- The best spot is lighter than all in front of it, and no heavier than those behind it. -/
theorem best?_split {ss : List Spot} {s : Spot} (h : best? ss = some s) :
    ∃ front back, ss = front ++ s :: back
      ∧ (∀ t ∈ front, s.label.weight < t.label.weight)
      ∧ ∀ t ∈ back, s.label.weight ≤ t.label.weight := by
  induction ss using List.reverseRecOn generalizing s with
  | nil => exact absurd h (by simp [best?])
  | append_singleton ss t ih =>
    rw [best?_concat] at h
    cases chosen : best? ss with
    | none =>
      rw [chosen] at h
      obtain rfl : t = s := Option.some.inj h
      exact ⟨[], [], by simp [best?_eq_none.mp chosen], by simp, by simp⟩
    | some b =>
      obtain ⟨front, back, split, before, behind⟩ := ih chosen
      rw [chosen, Option.elim_some, Option.some.injEq] at h
      by_cases better : t.beats b
      · -- The last one beats the best so far, and with it all the others.
        rw [if_pos better] at h
        subst h
        have less := beats_iff.mp better
        refine ⟨ss, [], rfl, fun u hu => ?_, by simp⟩
        rw [split, List.mem_append, List.mem_cons] at hu
        rcases hu with hu | rfl | hu
        · exact less.trans (before u hu)
        · exact less
        · exact less.trans_le (behind u hu)
      · rw [if_neg better] at h
        subst h
        refine ⟨front, back ++ [t], by simp [split], before, ?_⟩
        refine List.forall_mem_append.mpr ⟨behind, List.forall_mem_singleton.mpr ?_⟩
        exact not_lt.mp fun less => better (beats_iff.mpr less)

/-- The same among all spots, if the best is chosen from those that pass a test. -/
theorem best?_filter_split {ss : List Spot} {test : Spot → Bool} {s : Spot}
    (h : best? (ss.filter test) = some s) :
    ∃ front back, ss = front ++ s :: back ∧ test s
      ∧ (∀ t ∈ front, test t → s.label.weight < t.label.weight)
      ∧ ∀ t ∈ back, test t → s.label.weight ≤ t.label.weight := by
  obtain ⟨front, back, split, before, behind⟩ := best?_split h
  obtain ⟨above, rest, rfl, rfl, found⟩ := List.filter_eq_append_iff.mp split
  obtain ⟨skipped, below, rfl, failing, passes, rfl⟩ := List.filter_eq_cons_iff.mp found
  refine ⟨above ++ skipped, below, (List.append_assoc ..).symm, passes, fun t ht tested => ?_,
    fun t ht tested => behind t (List.mem_filter.mpr ⟨ht, tested⟩)⟩
  rcases List.mem_append.mp ht with ht | ht
  · exact before t (List.mem_filter.mpr ⟨ht, tested⟩)
  · exact absurd tested (failing t ht)

end Spot

/-! ## 2. Nodes -/

/-- A walk that looks for nothing visits every node, in document order. -/
theorem Rose.walk_all {α : Type} (ts : List (Rose α)) :
    (Rose.walk (fun _ => (none : Option Unit)) ts).1 = Rose.subtreesAll ts := by
  fun_induction Rose.walk (fun _ : Rose α => (none : Option Unit)) ts with
  | case1 => rfl
  | case2 t todo answer found => exact absurd found (by simp)
  | case3 t todo found later ih =>
    cases t with
    | node a us =>
      show Rose.node a us :: later.1 = _
      rw [ih, Rose.children, Rose.subtreesAll_append, Rose.subtreesAll, Rose.subtrees,
        List.cons_append]

/-- A line and the nodes on it, in document order. -/
def Line.labels (l : Line) : List Label := l.node.label :: Rose.preorderAll l.row.nodes

/-- Under lines there are the nodes of each line by itself. -/
theorem preorderAll_nodesOf (ls : List Line) :
    Rose.preorderAll (Line.nodesOf ls) = (Line.withinAll ls).flatMap Line.labels := by
  match ls with
  | [] => rfl
  | .simple f b :: ls =>
    rw [Line.nodesOf, Rose.preorderAll, preorderAll_nodesOf ls, Line.withinAll, Line.within,
      List.flatMap_append, List.flatMap_singleton]
    rfl
  | .element f t inner :: ls =>
    have own : (Line.element f t inner).node.preorder
        = (Line.element f t inner).labels ++ Rose.preorderAll (Line.nodesOf inner) := by
      rw [Line.labels, Line.node, Node.compose, Rose.preorder, Rose.preorderAll_append]
      rfl
    rw [Line.nodesOf, Rose.preorderAll, own, preorderAll_nodesOf ls, preorderAll_nodesOf inner,
      Line.withinAll, Line.within, List.flatMap_append, List.flatMap_cons]
termination_by sizeOf ls

theorem map_label_spotsOf (owner : Option Tag) (ls : List Line) :
    (Line.spotsOf owner ls).map Spot.label = (Line.withinAll ls).flatMap Line.labels := by
  have own (labels : List Label) (r : Row) (owner : Option Tag) :
      (labels.map (⟨·, r, owner⟩) : List Spot).map Spot.label = labels := by
    rw [List.map_map]
    exact List.map_id _
  match ls with
  | [] => rfl
  | .simple f b :: ls =>
    rw [Line.spotsOf, Line.spots, List.map_append, own, map_label_spotsOf owner ls,
      Line.withinAll, Line.within, List.flatMap_append, List.flatMap_singleton]
    rfl
  | .element f t inner :: ls =>
    rw [Line.spotsOf, Line.spots, List.map_append, List.map_append, own,
      map_label_spotsOf owner ls, map_label_spotsOf (some t) inner, Line.withinAll, Line.within,
      List.flatMap_append, List.flatMap_cons]
    rfl
termination_by sizeOf ls

/-- The nodes under the root are the spots, and the end of the text. -/
theorem descendants_root (file : SourceFile) : file.root.descendants
    = (Line.spotsOf none file.lines).map Spot.label ++ [(file.endOfFile.node .part).label] := by
  show Rose.preorderAll (Line.nodesOf file.lines ++ [file.endOfFile.node .part]) = _
  rw [Rose.preorderAll_append, preorderAll_nodesOf, map_label_spotsOf]
  rfl

/-- A cursor at the position may stand on the node: the node is there, is neither trivia nor the end
of the text, starts on the line of the cursor and reaches its column. -/
structure Label.Reached (l : Label) (p : Position) : Prop where
  there : l.missing = false
  visible : l.kind.isTrivia = false
  inText : l.kind ≠ .endOfText
  line : l.extent.start.line = p.line
  start : l.extent.start.column ≤ p.column
  stop : l.extent.crossesLine = true ∨ p.column ≤ l.extent.start.column + l.extent.length

theorem Spot.reached_iff {s : Spot} {p : Position} :
    (s.isSolid && s.touches p) = true ↔ s.label.Reached p := by
  simp only [isSolid, touches, Bool.and_eq_true, Bool.or_eq_true, Bool.not_eq_true', bne_iff_ne,
    beq_iff_eq, decide_eq_true_eq]
  constructor
  · rintro ⟨⟨⟨there, visible⟩, inText⟩, ⟨line, start⟩, stop⟩
    exact ⟨there, visible, inText, line, start, stop⟩
  · rintro ⟨there, visible, inText, line, start, stop⟩
    exact ⟨⟨⟨there, visible⟩, inText⟩, ⟨line, start⟩, stop⟩

/-! ## 3. The choice -/

namespace SourceFile

/-- The ranks of the nodes that a cursor at the position reaches. -/
def ranksAt (file : SourceFile) (p : Position) : Set ((Bool ×ₗ Nat) ×ₗ Nat) :=
  {r | ∃ (i : Nat) (l : Label), file.root.descendants[i]? = some l ∧ l.Reached p ∧ l.rank i = r}

variable {file : SourceFile} {p : Position} {s : Spot} (ends : file.endOfFile.kind = .endOfText)

include ends

/-- A node that is reached is a spot. -/
theorem exists_spot {i : Nat} {l : Label} (at_i : file.root.descendants[i]? = some l)
    (reached : l.Reached p) : ∃ s, (Line.spotsOf none file.lines)[i]? = some s ∧ s.label = l := by
  rw [descendants_root, List.getElem?_append] at at_i
  split at at_i
  · rwa [List.getElem?_map, Option.map_eq_some_iff] at at_i
  · have last := List.mem_singleton.mp (List.mem_of_getElem? at_i)
    exact absurd (by rw [last]; exact ends) reached.inText

omit ends in
theorem getElem?_descendants {i : Nat} (at_i : (Line.spotsOf none file.lines)[i]? = some s) :
    file.root.descendants[i]? = some s.label := by
  have here : ((Line.spotsOf none file.lines).map Spot.label)[i]? = some s.label := by
    rw [List.getElem?_map, at_i, Option.map_some]
  rw [descendants_root, List.getElem?_append_left (List.getElem?_eq_some_iff.mp here).1, here]

/-- The spot that is chosen has the least rank. -/
theorem isLeast_of_spotAt? (h : file.spotAt? p = some s) :
    ∃ i, (Line.spotsOf none file.lines)[i]? = some s
      ∧ IsLeast (file.ranksAt p) (s.label.rank i) := by
  obtain ⟨front, back, split, reached, before, behind⟩ := Spot.best?_filter_split h
  have at_s : (Line.spotsOf none file.lines)[front.length]? = some s := by
    rw [split, List.getElem?_append_right le_rfl, Nat.sub_self]
    rfl
  refine ⟨_, at_s, ⟨_, _, getElem?_descendants at_s, Spot.reached_iff.mp reached, rfl⟩, ?_⟩
  rintro r ⟨j, l, at_j, hl, rfl⟩
  obtain ⟨t, at_t, rfl⟩ := exists_spot ends at_j hl
  have touched := Spot.reached_iff.mpr hl
  rw [Label.rank_le_iff]
  rcases lt_or_ge j front.length with less | greater
  · rw [split, List.getElem?_append_left less] at at_t
    exact .inl (before t (List.mem_of_getElem? at_t) touched)
  · rw [split, List.getElem?_append_right greater] at at_t
    rcases List.mem_cons.mp (List.mem_of_getElem? at_t) with rfl | mem
    · exact .inr ⟨rfl, greater⟩
    · rcases lt_or_eq_of_le (behind t mem touched) with lighter | same
      · exact .inl lighter
      · exact .inr ⟨same, greater⟩

/-- Nothing is chosen if nothing is reached. -/
theorem spotAt?_eq_none_iff :
    file.spotAt? p = none ↔ ∀ l ∈ file.root.descendants, ¬l.Reached p := by
  rw [spotAt?, Spot.best?_eq_none, List.filter_eq_nil_iff]
  constructor
  · intro none l hl reached
    obtain ⟨i, at_i⟩ := List.mem_iff_getElem?.mp hl
    obtain ⟨s, here, rfl⟩ := exists_spot ends at_i reached
    exact none s (List.mem_of_getElem? here) (Spot.reached_iff.mpr reached)
  · intro none s hs touched
    refine none s.label ?_ (Spot.reached_iff.mp touched)
    rw [descendants_root]
    exact List.mem_append_left _ (List.mem_map_of_mem hs)

/-- The spot of the least rank is chosen. -/
theorem spotAt?_of_isLeast {i : Nat} (at_i : (Line.spotsOf none file.lines)[i]? = some s)
    (least : IsLeast (file.ranksAt p) (s.label.rank i)) : file.spotAt? p = some s := by
  obtain ⟨j, l, at_j, reached, -⟩ := least.1
  cases chosen : file.spotAt? p with
  | none => exact absurd reached ((spotAt?_eq_none_iff ends).mp chosen l (List.mem_of_getElem? at_j))
  | some t =>
    obtain ⟨k, at_k, least'⟩ := isLeast_of_spotAt? ends chosen
    obtain rfl := Label.index_eq_of_rank (least'.unique least)
    exact at_k.symm.trans at_i

/-- Where a leaf is reached, a leaf is chosen. -/
theorem isLeaf_spotAt? (leaf : ∃ l ∈ file.root.descendants, l.isLeaf = true ∧ l.Reached p) :
    ∃ s, file.spotAt? p = some s ∧ s.label.isLeaf = true := by
  obtain ⟨l, hl, leaf, reached⟩ := leaf
  obtain ⟨i, at_i⟩ := List.mem_iff_getElem?.mp hl
  cases chosen : file.spotAt? p with
  | none => exact absurd reached ((spotAt?_eq_none_iff ends).mp chosen l hl)
  | some s =>
    obtain ⟨j, -, -, least⟩ := isLeast_of_spotAt? ends chosen
    refine ⟨s, rfl, ?_⟩
    by_contra composite
    have lighter : l.weight < s.label.weight :=
      Label.weight_lt_iff.mpr (.inl ⟨leaf, by simpa using composite⟩)
    rcases Label.rank_le_iff.mp (least ⟨i, l, at_i, reached, rfl⟩) with less | ⟨same, -⟩
    · exact less.asymm lighter
    · exact lighter.ne' same

end SourceFile

/-! ## 4. Leaves with text -/

namespace Label

/-- A leaf that is neither trivia nor the end of the text. -/
structure IsText (l : Label) : Prop where
  leaf : l.isLeaf = true
  visible : l.kind.isTrivia = false
  inText : l.kind ≠ .endOfText

/-- The node ends on an earlier line than the other starts on, or in front of it. -/
def Before (l m : Label) : Prop :=
  l.extent.start.line < m.extent.start.line ∨ l.extent.start.line = m.extent.start.line
    ∧ l.extent.start.column + l.extent.length ≤ m.extent.start.column

variable {l : Label}

/-- A leaf with text stays on its line and is as long as its text. -/
theorem IsText.exists_leaf (h : l.IsText) (advances : l.Advances) :
    ∃ leaf, l.leaf? = some leaf ∧ leaf.start = l.extent.start ∧ leaf.missing = l.missing
      ∧ l.extent.length = unitLength leaf.source ∧ l.extent.crossesLine = false := by
  obtain ⟨cs, text⟩ := Option.isSome_iff_exists.mp h.leaf
  have inLine : l.kind ≠ .lineBreak := fun brk => by
    have visible := h.visible
    rw [brk] at visible
    exact absurd visible (by decide)
  have stop := advances cs text
  rw [if_neg inLine] at stop
  refine ⟨⟨l.kind, l.extent.start, cs, l.missing⟩, by rw [leaf?, text]; rfl, rfl, rfl, ?_, ?_⟩
  · simp [Extent.length, stop, Location.after]
  · simp [Extent.crossesLine, stop, Location.after]

/-- The end of a line is no text. -/
theorem not_isText_stop {t : Token} (ends : t.kind.endsLine = true) :
    ¬((Leaf.ofToken t).node .part).label.IsText := by
  rintro ⟨-, visible, inText⟩
  have kinds : ∀ k : Kind, k.endsLine = true → k.isTrivia = true ∨ k = .endOfText := by
    intro k hk
    cases k <;> simp_all [Kind.endsLine, Kind.isTrivia]
  rcases kinds _ ends with trivia | last
  · rw [show t.kind.isTrivia = false from visible] at trivia
    exact absurd trivia (by decide)
  · exact inText last

end Label

/-- Leaves side by side are on one line, each behind the one before. -/
theorem Abreast.pairwise {here : Location} {ls : List Leaf} (h : Abreast here ls) :
    (∀ l ∈ ls, l.start.line = here.line ∧ here.column ≤ l.start.column)
      ∧ ls.Pairwise fun a b => a.start.line = b.start.line
        ∧ a.start.column + unitLength a.source ≤ b.start.column := by
  induction ls generalizing here with
  | nil => exact ⟨by simp, .nil⟩
  | cons l ls ih =>
    obtain ⟨rfl, later⟩ := h
    obtain ⟨behind, order⟩ := ih later
    refine ⟨List.forall_mem_cons.mpr ⟨⟨rfl, Nat.le_refl _⟩, fun m hm => ?_⟩, .cons ?_ order⟩
    · exact ⟨(behind m hm).1, (Nat.le_add_right ..).trans (behind m hm).2⟩
    · exact fun m hm => ⟨(behind m hm).1.symm, (behind m hm).2⟩

/-- A line is composite. -/
theorem Line.not_isText_node (l : Line) : ¬l.node.label.IsText := by
  rintro ⟨leaf, -, -⟩
  cases l <;> exact absurd leaf (by rw [Line.node]; exact Bool.false_ne_true)

/-- On a line there are the nodes in front of its end, and the end. -/
theorem Line.labels_eq {l : Line} {tl : TokenLine} (row : l.row = Row.ofTokenLine tl) :
    l.labels = l.node.label :: (Rose.preorderAll tl.nodesInFront
      ++ [((Leaf.ofToken tl.stop).node .part).label]) := by
  rw [labels, row, nodes_ofTokenLine, Rose.preorderAll_append]
  rfl

theorem advances_nodesInFront (tl : TokenLine) : Everywhere Label.Advances tl.nodesInFront := by
  have own := Everywhere.row kept_advances (Row.ofTokenLine tl)
  rw [nodes_ofTokenLine] at own
  exact own.left

section

variable {variant : Variant} {text : List Char} {l : Line}

/-- A leaf with text on a line stays on the line, and is empty if it is missing. -/
theorem text_label (hl : l ∈ Line.withinAll (SourceFile.ofText variant text).lines) {x : Label}
    (hx : x ∈ l.labels) (isText : x.IsText) : x.extent.start.line = l.lineNumber
      ∧ x.extent.crossesLine = false ∧ (x.missing = true → x.extent.length = 0) := by
  obtain ⟨tl, at_k, row⟩ := exists_tokenLine hl
  obtain ⟨q, e, line, here⟩ := exists_readsLine at_k
  rw [Line.labels_eq row, List.mem_cons, List.mem_append, List.mem_singleton] at hx
  rcases hx with rfl | hx | rfl
  · exact absurd isText l.not_isText_node
  · obtain ⟨leaf, own, start, missing, length, inLine⟩ :=
      isText.exists_leaf (advances_nodesInFront tl x hx)
    have mem : leaf ∈ leavesOf tl.nodesInFront := List.mem_filterMap.mpr ⟨x, hx, own⟩
    have places := (abreast_nodesInFront line).1.pairwise.1
    refine ⟨?_, inLine, fun gone => ?_⟩
    · rw [← start, (places leaf mem).1, here]
      rfl
    · obtain ⟨t, ht, there⟩ := Node.mem_leavesOf.mp mem
      rw [length, (straight_nodesInFront line t ht).missing leaf there (missing.trans gone)]
      rfl
  · exact absurd isText (Label.not_isText_stop line.ends)

/-- The leaves with text on a line stand side by side. -/
theorem pairwise_labels (hl : l ∈ Line.withinAll (SourceFile.ofText variant text).lines) :
    l.labels.Pairwise fun x y => x.IsText → y.IsText → x.Before y := by
  obtain ⟨tl, at_k, row⟩ := exists_tokenLine hl
  obtain ⟨q, e, line, -⟩ := exists_readsLine at_k
  have order := (abreast_nodesInFront line).1.pairwise.2
  rw [leavesOf, List.pairwise_filterMap] at order
  rw [Line.labels_eq row, List.pairwise_cons, List.pairwise_append]
  refine ⟨fun _ _ own => absurd own l.not_isText_node,
    order.imp_of_mem fun hx hy apart textX textY => ?_, List.pairwise_singleton ..,
    fun x _ y hy _ textY => ?_⟩
  · obtain ⟨a, ownA, startA, -, length, -⟩ := textX.exists_leaf (advances_nodesInFront tl _ hx)
    obtain ⟨b, ownB, startB, -⟩ := textY.exists_leaf (advances_nodesInFront tl _ hy)
    have side := apart a ownA b ownB
    rw [startA, startB, ← length] at side
    exact .inr side
  · rw [List.mem_singleton.mp hy] at textY
    exact absurd textY (Label.not_isText_stop line.ends)

/-- So do the leaves with text of a file. -/
theorem pairwise_before (variant : Variant) (text : List Char) :
    (SourceFile.ofText variant text).root.descendants.Pairwise
      fun x y => x.IsText → y.IsText → x.Before y := by
  rw [descendants_root, map_label_spotsOf, List.pairwise_append, List.pairwise_flatMap]
  have order := pairwise_of_infix
    (List.infix_refl (Line.withinAll (SourceFile.ofText variant text).lines))
  refine ⟨⟨fun l hl => pairwise_labels hl, order.imp_of_mem fun hl hm less => ?_⟩,
    List.pairwise_singleton .., fun x _ y hy _ textY => ?_⟩
  · intro x hx y hy textX textY
    have first := (text_label hl hx textX).1
    have second := (text_label hm hy textY).1
    exact .inl (by rw [first, second]; exact less)
  · rw [List.mem_singleton.mp hy] at textY
    exact absurd rfl textY.inText

theorem text_descendants {x : Label}
    (hx : x ∈ (SourceFile.ofText variant text).root.descendants) (isText : x.IsText) :
    x.extent.crossesLine = false ∧ (x.missing = true → x.extent.length = 0) := by
  rw [descendants_root, map_label_spotsOf, List.mem_append] at hx
  rcases hx with hx | hx
  · obtain ⟨l, hl, hx⟩ := List.mem_flatMap.mp hx
    exact (text_label hl hx isText).2
  · rw [List.mem_singleton.mp hx] at isText
    exact absurd rfl isText.inText

/-- A cursor inside a leaf with text reaches no other leaf. -/
theorem eq_of_reached {p : Position} {i j : Nat} {x y : Label}
    (at_i : (SourceFile.ofText variant text).root.descendants[i]? = some x) (isText : x.IsText)
    (line : x.extent.start.line = p.line) (start : x.extent.start.column < p.column)
    (stop : p.column < x.extent.start.column + x.extent.length)
    (at_j : (SourceFile.ofText variant text).root.descendants[j]? = some y)
    (leaf : y.isLeaf = true) (reached : y.Reached p) : i = j := by
  have other : y.IsText := ⟨leaf, reached.visible, reached.inText⟩
  have straight := (text_descendants (List.mem_of_getElem? at_j) other).1
  have reaches : p.column ≤ y.extent.start.column + y.extent.length :=
    reached.stop.resolve_left (by simp [straight])
  have column := reached.start
  have same := reached.line
  have order := List.pairwise_iff_getElem.mp (pairwise_before variant text)
  obtain ⟨hi, rfl⟩ := List.getElem?_eq_some_iff.mp at_i
  obtain ⟨hj, rfl⟩ := List.getElem?_eq_some_iff.mp at_j
  rcases lt_trichotomy i j with less | equal | greater
  · rcases order i j hi hj less isText other with above | ⟨-, apart⟩ <;> omega
  · exact equal
  · rcases order j i hj hi greater other isText with above | ⟨-, apart⟩ <;> omega

/-- A leaf with text is chosen by a cursor inside it. -/
theorem spotAt?_inside {p : Position} {i : Nat} {x : Label}
    (at_i : (SourceFile.ofText variant text).root.descendants[i]? = some x) (isText : x.IsText)
    (line : x.extent.start.line = p.line) (start : x.extent.start.column < p.column)
    (stop : p.column < x.extent.start.column + x.extent.length) :
    ∃ s, (Line.spotsOf none (SourceFile.ofText variant text).lines)[i]? = some s
      ∧ (SourceFile.ofText variant text).spotAt? p = some s := by
  have there : x.missing = false := by
    by_contra missing
    have empty := (text_descendants (List.mem_of_getElem? at_i) isText).2 (by simpa using missing)
    omega
  have reached : x.Reached p :=
    ⟨there, isText.visible, isText.inText, line, start.le, .inr stop.le⟩
  obtain ⟨s, at_i', rfl⟩ := SourceFile.exists_spot rfl at_i reached
  refine ⟨s, at_i', SourceFile.spotAt?_of_isLeast rfl at_i' ⟨⟨i, _, at_i, reached, rfl⟩, ?_⟩⟩
  rintro r ⟨j, y, at_j, hy, rfl⟩
  rw [Label.rank_le_iff]
  cases leaf : y.isLeaf with
  | false => exact .inl (Label.weight_lt_iff.mpr (.inl ⟨isText.leaf, leaf⟩))
  | true =>
    obtain rfl := eq_of_reached at_i isText line start stop at_j leaf hy
    obtain rfl := Option.some.inj (at_i.symm.trans at_j)
    exact .inr ⟨rfl, Nat.le_refl _⟩

end

/-! ## 5. Files -/

/-- The spot at a position of a text. A walk over the nodes under the root visits the spots and, at
last, the end of the text. Of those nodes that a cursor at the position reaches, the one of the least
rank is chosen, and none if there are none. So a leaf with text is chosen by every cursor inside it,
and a composite node only where no leaf is reached. -/
theorem spot_choice (variant : Variant) (text : List Char) (p : Position) :
    let file := SourceFile.ofText variant text
    let spots := Line.spotsOf none file.lines
    let nodes := file.root.descendants
    (Rose.walk (fun _ => (none : Option Unit)) file.root.children).1.map Rose.label = nodes
      ∧ nodes = spots.map Spot.label ++ [(file.endOfFile.node .part).label]
      ∧ (file.spotAt? p = none ↔ ∀ l ∈ nodes, ¬l.Reached p)
      ∧ (∀ s, file.spotAt? p = some s ↔ ∃ i, spots[i]? = some s
        ∧ IsLeast (file.ranksAt p) (s.label.rank i))
      ∧ (∀ (i : Nat) (l : Label), nodes[i]? = some l → l.IsText → l.extent.start.line = p.line →
        l.extent.start.column < p.column →
        p.column < l.extent.start.column + l.extent.length →
        ∃ s, spots[i]? = some s ∧ file.spotAt? p = some s)
      ∧ ((∃ l ∈ nodes, l.isLeaf = true ∧ l.Reached p) →
        ∃ s, file.spotAt? p = some s ∧ s.label.isLeaf = true) := by
  intro file spots nodes
  have ends : file.endOfFile.kind = .endOfText := rfl
  refine ⟨?_, descendants_root file, SourceFile.spotAt?_eq_none_iff ends,
    fun s => ⟨SourceFile.isLeast_of_spotAt? ends, ?_⟩, fun i l => spotAt?_inside,
    SourceFile.isLeaf_spotAt? ends⟩
  · rw [Rose.walk_all, Rose.map_label_subtreesAll]
    rfl
  · rintro ⟨i, at_i, least⟩
    exact SourceFile.spotAt?_of_isLeast ends at_i least

end OffsideMarkup
