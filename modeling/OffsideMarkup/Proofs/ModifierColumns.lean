/-
OffsideMarkup.Proofs.ModifierColumns — the columns of a line where modifiers are offered.

Between the first dot of a handler and the end of its modifiers, a cursor reaches nothing but
modifiers. At the two borders it reaches another leaf as well, and the narrower of the two is under
the cursor, or the one in front if they are as wide. So there it depends on the widths what is
offered (`Handler.OpensAt`): next to an equals sign without space in front, an item of more than one
character is not under the cursor.

* `Handler.Layout` — the columns of the leaves of a handler: no gaps, no overlaps.
* `Handler.Chosen` — the leaf that the cursor is on, among the leaves of the handler. It is a
  modifier where modifiers are offered (`StandsOn.opensAt`, `StandsOn.not_opensAt`).
* `narrowest_of_spotAt?` — the choice among all nodes of a file, by width and column; hence the leaf
  under the cursor is the one that is chosen on its line (`exists_chosen`).
-/
import OffsideMarkup.Proofs.ModifierOffer

namespace OffsideMarkup

/-! ## 1. Leaves at a column -/

/-- A leaf that is there has a width. -/
theorem Leaf.Filled.width_pos {k : Kind} {l : Leaf} (h : l.Filled k) (there : l.missing = false) :
    0 < unitLength l.source :=
  Nat.pos_of_ne_zero (mt unitLength_eq_zero.mp (h.source_ne_nil there))

/-- A cursor at the column reaches the leaf. -/
structure Leaf.ReachedAt (l : Leaf) (column : Nat) : Prop where
  there : l.missing = false
  start : l.start.column ≤ column
  stop : column ≤ l.start.column + unitLength l.source

/-- Leaves side by side stay in front of where they end. -/
theorem Abreast.column_le {here : Location} {ls : List Leaf} (h : Abreast here ls) :
    ∀ l ∈ ls, l.start.column + unitLength l.source
      ≤ here.column + unitLength (ls.flatMap Leaf.source) := by
  induction ls generalizing here with
  | nil => simp
  | cons l ls ih =>
    obtain ⟨rfl, later⟩ := h
    have behind := ih later
    rw [List.flatMap_cons, unitLength_append]
    refine List.forall_mem_cons.mpr ⟨by omega, fun m hm => (behind m hm).trans ?_⟩
    show l.start.column + unitLength l.source + _ ≤ _
    omega

/-- There is no gap between leaves side by side. -/
theorem Abreast.exists_reaching {here : Location} {ls : List Leaf} (h : Abreast here ls)
    {column : Nat} (start : here.column < column)
    (stop : column ≤ here.column + unitLength (ls.flatMap Leaf.source)) :
    ∃ l ∈ ls, l.start.column < column ∧ column ≤ l.start.column + unitLength l.source := by
  induction ls generalizing here with
  | nil => exact absurd start (Nat.not_lt.mpr stop)
  | cons l ls ih =>
    obtain ⟨rfl, later⟩ := h
    by_cases first : column ≤ l.start.column + unitLength l.source
    · exact ⟨l, List.mem_cons_self, start, first⟩
    · rw [List.flatMap_cons, unitLength_append, ← Nat.add_assoc] at stop
      obtain ⟨m, hm, reaching⟩ := ih later (by simpa [Location.after] using first) stop
      exact ⟨m, List.mem_cons_of_mem l hm, reaching⟩

/-! ## 2. The parts of a handler -/

namespace Handler

/-- The last leaf of the modifiers that is there: an item, or the dot in front of a missing one. -/
def lastModifier? (h : Handler) : Option Leaf := (h.modifierLeaves.filter (!·.missing)).getLast?

/-- Where the leaves of a handler are whose modifiers open with this dot. -/
structure Layout (h : Handler) (dot : Leaf) : Prop where
  event : h.event.start.column = h.sigil.start.column + 1
  start : dot.start.column = h.event.start.column + unitLength h.event.source
  first : dot ∈ h.modifierLeaves ∧ 0 < unitLength dot.source
  inside : ∀ x ∈ h.modifierLeaves,
    x = dot ∨ dot.start.column + unitLength dot.source ≤ x.start.column
  stop : ∀ x ∈ h.modifierLeaves,
    x.start.column + unitLength x.source ≤ h.equals.start.column
  reaching : ∀ column, dot.start.column < column → column ≤ h.equals.start.column →
    ∃ x ∈ h.modifierLeaves, x.start.column < column
      ∧ column ≤ x.start.column + unitLength x.source
  apart : h.modifierLeaves.Pairwise fun a b =>
    a.start.column + unitLength a.source ≤ b.start.column
  behind : ∀ x ∈ leavesOf h.nodesBehind, x = h.equals
    ∨ h.equals.start.column + unitLength h.equals.source ≤ x.start.column
  gone : h.equals.missing = true → ∀ x ∈ leavesOf h.nodesBehind, x.missing = true

variable {h : Handler} {k : Nat} {dot x : Leaf} {column : Nat}

/-- Behind the modifiers there is an equals sign, then the rest. -/
theorem leavesOf_nodesBehind (h : Handler) : leavesOf h.nodesBehind = h.equals :: h.action
    :: leavesOf (pairNodes (·.node .part) Template.node h.parameter) := rfl

theorem StandsOn.layout {item : Leaf} {later : List (Leaf × Leaf)} (stands : h.StandsOn k)
    (segments : h.segments = (dot, item) :: later) : h.Layout dot := by
  obtain ⟨here, -, abreast⟩ := stands.abreast
  have opens : h.modifierLeaves = dot :: item :: later.flatMap fun p => [p.1, p.2] := by
    rw [modifierLeaves, segments]
    rfl
  rw [leavesOf_nodes, abreast_append, abreast_append] at abreast
  obtain ⟨⟨⟨sigil, event, -⟩, own⟩, behind⟩ := abreast
  have first : dot.start = here.after ([h.sigil, h.event].flatMap Leaf.source) :=
    (opens ▸ own).1
  have equals : h.equals.start = dot.start.after (h.modifierLeaves.flatMap Leaf.source) := by
    rw [first, ← Location.after_append, ← List.flatMap_append]
    exact behind.1
  rw [← first] at own
  have someDot : 0 < unitLength dot.source := by
    obtain ⟨⟨filled, there⟩, -⟩ := stands.segments (dot, item) (by simp [segments])
    exact filled.width_pos there
  refine ⟨?event, ?start, ⟨by simp [opens], someDot⟩, ?inside, ?stop, ?reaching,
    own.pairwise.2.imp And.right, ?behind, ?gone⟩
  case event =>
    rw [event, sigil, ← stands.sigil.2.2]
    rfl
  case start =>
    rw [first, event, List.flatMap_cons, Location.after_append]
    simp [Location.after]
  case inside =>
    rw [opens] at own ⊢
    refine List.forall_mem_cons.mpr ⟨.inl rfl, fun x hx => .inr ?_⟩
    exact (own.2.pairwise.1 x hx).2
  case stop =>
    rw [equals]
    exact own.column_le
  case reaching =>
    intro column start stop
    rw [equals] at stop
    exact own.exists_reaching start stop
  case behind =>
    rw [leavesOf_nodesBehind] at behind ⊢
    obtain ⟨start, rest⟩ := behind
    rw [← start] at rest
    exact List.forall_mem_cons.mpr ⟨.inl rfl, fun x hx => .inr (rest.pairwise.1 x hx).2⟩
  case gone =>
    intro missing
    obtain ⟨action, parameter⟩ := stands.behind missing
    rw [leavesOf_nodesBehind, parameter]
    simp [missing, action, pairNodes]

/-- A leaf of the modifiers that is there has a width. -/
theorem StandsOn.width_pos (stands : h.StandsOn k) (hx : x ∈ h.modifierLeaves)
    (there : x.missing = false) : 0 < unitLength x.source := by
  obtain ⟨i, dot, item, at_i, is⟩ := mem_modifierLeaves.mp hx
  obtain ⟨⟨first, -⟩, second⟩ := stands.segments _ (List.mem_of_getElem? at_i)
  rcases is with rfl | rfl
  · exact first.width_pos there
  · exact second.width_pos there

/-- What has a width is there. -/
theorem StandsOn.there_of_width (stands : h.StandsOn k) (hx : x ∈ h.modifierLeaves)
    (width : 0 < unitLength x.source) : x.missing = false := by
  obtain ⟨i, dot, item, at_i, is⟩ := mem_modifierLeaves.mp hx
  obtain ⟨⟨first, there⟩, second⟩ := stands.segments _ (List.mem_of_getElem? at_i)
  rcases is with rfl | rfl
  · exact there
  · by_contra gone
    rw [second.missing_iff.mp (by simpa using gone)] at width
    exact absurd width (by decide)

theorem StandsOn.visible (stands : h.StandsOn k) (hx : x ∈ h.modifierLeaves) :
    x.kind.isTrivia = false := by
  obtain ⟨i, dot, item, at_i, is⟩ := mem_modifierLeaves.mp hx
  obtain ⟨⟨first, -⟩, second⟩ := stands.segments _ (List.mem_of_getElem? at_i)
  rcases is with rfl | rfl
  · rw [first.kind]; rfl
  · rw [second.kind]; rfl

/-- The last modifier that is there is the one that ends where the modifiers do. -/
theorem StandsOn.lastModifier?_eq (stands : h.StandsOn k) (layout : h.Layout dot)
    (hx : x ∈ h.modifierLeaves) (there : x.missing = false)
    (stop : h.equals.start.column ≤ x.start.column + unitLength x.source) :
    h.lastModifier? = some x := by
  have mem : x ∈ h.modifierLeaves.filter (!·.missing) := List.mem_filter.mpr ⟨hx, by simp [there]⟩
  cases last : h.lastModifier? with
  | none =>
    rw [lastModifier?, List.getLast?_eq_none_iff] at last
    rw [last] at mem
    exact absurd mem List.not_mem_nil
  | some y =>
    obtain ⟨front, split⟩ := List.getLast?_eq_some_iff.mp last
    have own : y ∈ h.modifierLeaves.filter (!·.missing) := by simp [split]
    obtain ⟨hy, thereY⟩ := List.mem_filter.mp own
    have width := stands.width_pos hy (by simpa using thereY)
    have stopY := layout.stop y hy
    rw [split, List.mem_append, List.mem_singleton] at mem
    rcases mem with before | rfl
    · have order := layout.apart.filter (!·.missing)
      rw [split, List.pairwise_append] at order
      have apart := order.2.2 x before y (by simp)
      omega
    · rfl

theorem StandsOn.stop_lastModifier? (stands : h.StandsOn k) (layout : h.Layout dot)
    (last : h.lastModifier? = some x) : x ∈ h.modifierLeaves ∧ x.missing = false
      ∧ x.start.column + unitLength x.source = h.equals.start.column := by
  have some_width : dot.start.column < h.equals.start.column := by
    have stop := layout.stop dot layout.first.1
    have width := layout.first.2
    omega
  obtain ⟨y, hy, start, stop⟩ := layout.reaching _ some_width (Nat.le_refl _)
  have there := stands.there_of_width hy (by omega)
  have same := stands.lastModifier?_eq layout hy there stop
  obtain rfl : x = y := Option.some.inj (last.symm.trans same)
  exact ⟨hy, there, Nat.le_antisymm (layout.stop x hy) stop⟩

/-! ## 3. The leaf at a column -/

/-- Modifiers are offered at a column between the first dot and the end of the modifiers. At the end
they are unless the equals sign there is narrower than the last of the modifiers, and in front of
the dot they are if the event there is wider than the dot. -/
def OpensAt (h : Handler) (dot : Leaf) (column : Nat) : Prop :=
  (dot.start.column < column ∧ column < h.equals.start.column)
    ∨ (column = h.equals.start.column ∧ (h.equals.missing = true
      ∨ ∃ last, h.lastModifier? = some last
        ∧ unitLength last.source ≤ unitLength h.equals.source))
    ∨ (column = dot.start.column ∧ h.event.missing = false
      ∧ unitLength dot.source < unitLength h.event.source)

/-- The leaf of a handler that the cursor is on at a column: no other one that it reaches is
narrower, nor as narrow in front of it. -/
structure Chosen (h : Handler) (column : Nat) (x : Leaf) : Prop where
  reached : x.ReachedAt column
  least : ∀ y ∈ leavesOf (Body.handler h).nodes, y.kind.isTrivia = false → y.ReachedAt column →
    unitLength x.source ≤ unitLength y.source
      ∧ (y.start.column < x.start.column → unitLength x.source < unitLength y.source)

/-- If the cursor is on a modifier, modifiers are offered there. -/
theorem StandsOn.opensAt (stands : h.StandsOn k) (layout : h.Layout dot)
    (chosen : h.Chosen column x) (hx : x ∈ h.modifierLeaves) : h.OpensAt dot column := by
  have width := stands.width_pos hx chosen.reached.there
  have someDot := layout.first.2
  have stop := layout.stop x hx
  have reached := chosen.reached.start
  have reaches := chosen.reached.stop
  have start : dot.start.column ≤ x.start.column := by
    rcases layout.inside x hx with rfl | behind <;> omega
  rcases Nat.lt_or_ge dot.start.column column with after | atDot
  · rcases Nat.lt_or_ge column h.equals.start.column with inside | atEnd
    · exact .inl ⟨after, inside⟩
    · -- At the end of the modifiers the equals sign, if it is there, is not narrower.
      refine .inr (.inl ⟨by omega, ?_⟩)
      cases there : h.equals.missing with
      | true => exact .inl rfl
      | false =>
        refine .inr ⟨x, stands.lastModifier?_eq layout hx chosen.reached.there (by omega), ?_⟩
        exact (chosen.least h.equals (by simp [leavesOf_nodes, leavesOf_nodesBehind])
          (by rw [stands.equals.kind]; rfl) ⟨there, by omega, by omega⟩).1
  · -- In front of the dot the event is there, for the sigil would be chosen, and wider.
    obtain rfl : x = dot := (layout.inside x hx).resolve_right (by omega)
    refine .inr (.inr ⟨by omega, ?_⟩)
    have event := layout.event
    have here := layout.start
    cases there : h.event.missing with
    | true =>
      have none : unitLength h.event.source = 0 := by
        rw [stands.event.missing_iff.mp there]
        rfl
      obtain ⟨kind, present, one⟩ := stands.sigil
      have narrower := (chosen.least h.sigil (by simp [leavesOf_nodes]) (by rw [kind]; rfl)
        ⟨present, by omega, by omega⟩).2 (by omega)
      omega
    | false =>
      have some_event := stands.event.width_pos there
      exact ⟨rfl, (chosen.least h.event (by simp [leavesOf_nodes])
        (by rw [stands.event.kind]; rfl) ⟨there, by omega, by omega⟩).2 (by omega)⟩

/-- If modifiers are offered at a column, the cursor is on no other leaf. -/
theorem StandsOn.not_opensAt (stands : h.StandsOn k) (layout : h.Layout dot)
    (chosen : h.Chosen column x)
    (hx : x = h.sigil ∨ x = h.event ∨ x ∈ leavesOf h.nodesBehind) : ¬h.OpensAt dot column := by
  obtain ⟨first, someDot⟩ := layout.first
  have dotStop := layout.stop dot first
  have event := layout.event
  have here := layout.start
  have reached := chosen.reached.start
  have reaches := chosen.reached.stop
  rcases hx with rfl | rfl | behind
  · rw [stands.sigil.2.2] at reaches
    rintro (inside | atEnd | ⟨atDot, there, -⟩)
    · omega
    · omega
    · have some_event := stands.event.width_pos there
      omega
  · rintro (inside | atEnd | ⟨atDot, there, wider⟩)
    · omega
    · omega
    · -- The dot is narrower than the event.
      have least := (chosen.least dot (mem_leaves first) (stands.visible first)
        ⟨stands.there_of_width first someDot, by omega, by omega⟩).1
      omega
  · have start : h.equals.start.column ≤ x.start.column := by
      rcases layout.behind x behind with rfl | far <;> omega
    rintro (inside | ⟨atEnd, free⟩ | atDot)
    · omega
    · rcases free with gone | ⟨last, is, narrow⟩
      · exact Bool.false_ne_true (chosen.reached.there.symm.trans (layout.gone gone x behind))
      · obtain ⟨mem, there, stop⟩ := stands.stop_lastModifier? layout is
        have some_last := stands.width_pos mem there
        rcases layout.behind x behind with rfl | far
        · -- The last of the modifiers is no wider than the equals sign, and in front of it.
          have least := (chosen.least last (mem_leaves mem) (stands.visible mem)
            ⟨there, by omega, by omega⟩).2 (by omega)
          omega
        · omega
    · omega

/-- Where modifiers are offered, the cursor reaches one. -/
theorem StandsOn.exists_reached (stands : h.StandsOn k) (layout : h.Layout dot)
    (opens : h.OpensAt dot column) : ∃ x ∈ h.modifierLeaves, x.ReachedAt column := by
  obtain ⟨first, someDot⟩ := layout.first
  have dotStop := layout.stop dot first
  have inside (after : dot.start.column < column) (stop : column ≤ h.equals.start.column) :
      ∃ x ∈ h.modifierLeaves, x.ReachedAt column := by
    obtain ⟨x, hx, start, stop⟩ := layout.reaching column after stop
    exact ⟨x, hx, stands.there_of_width hx (by omega), start.le, stop⟩
  rcases opens with between | ⟨atEnd, -⟩ | ⟨atDot, -⟩
  · exact inside between.1 between.2.le
  · exact inside (by omega) (by omega)
  · exact ⟨dot, first, stands.there_of_width first someDot, by omega, by omega⟩

end Handler

/-! ## 4. Under the cursor -/

section

variable {variant : Variant} {text : List Char} {p : Position} {s : Spot}

/-- The leaf under the cursor is no wider than any other that the cursor reaches, and narrower than
those in front of it. -/
theorem narrowest_of_spotAt? (chosen : (SourceFile.ofText variant text).spotAt? p = some s)
    (leaf : s.label.isLeaf = true) {y : Label}
    (hy : y ∈ (SourceFile.ofText variant text).root.descendants) (other : y.isLeaf = true)
    (reached : y.Reached p) :
    s.label.extent.length ≤ y.extent.length
      ∧ (y.extent.start.column < s.label.extent.start.column →
        s.label.extent.length < y.extent.length) := by
  obtain ⟨i, at_i, own, least⟩ := SourceFile.isLeast_of_spotAt? rfl chosen
  obtain ⟨j, at_j⟩ := List.mem_iff_getElem?.mp hy
  have at_s := SourceFile.getElem?_descendants at_i
  have order := Label.rank_le_iff.mp (least ⟨j, y, at_j, reached, rfl⟩)
  rw [Label.weight_lt_iff, leaf, other] at order
  rcases order with lighter | ⟨same, behind⟩
  · have less : s.label.extent.length < y.extent.length := by simpa using lighter
    exact ⟨less.le, fun _ => less⟩
  · have width : s.label.extent.length = y.extent.length :=
      (Prod.mk.inj (toLex.injective same)).2
    refine ⟨width.le, fun front => ?_⟩
    -- Leaves come in the order of their columns, so the other one does not stand in front.
    have chosenReached := (SourceFile.reached_of_spotAt? chosen).2
    have isText : s.label.IsText := ⟨leaf, chosenReached.visible, chosenReached.inText⟩
    have line := chosenReached.line.trans reached.line.symm
    obtain ⟨hi, atS⟩ := List.getElem?_eq_some_iff.mp at_s
    obtain ⟨hj, atY⟩ := List.getElem?_eq_some_iff.mp at_j
    rcases behind.eq_or_lt with rfl | less
    · rw [← atS, ← atY] at front
      exact absurd front (lt_irrefl _)
    · have before := List.pairwise_iff_getElem.mp (pairwise_before variant text) i j hi hj less
      rw [atS, atY] at before
      have otherText : y.IsText := ⟨other, reached.visible, reached.inText⟩
      rcases before isText otherText with above | ⟨-, apart⟩ <;> omega

variable {l : Line} {f : Frame} {h : Handler} {column : Nat}
  (hl : l ∈ Line.withinAll (SourceFile.ofText variant text).lines)
  (row : l.row = .simple f (.handler h))

include hl row

/-- A leaf of a handler that a cursor reaches is a node that it reaches. -/
theorem exists_label {y : Leaf} (hy : y ∈ leavesOf (Body.handler h).nodes)
    (visible : y.kind.isTrivia = false) (reached : y.ReachedAt column) :
    ∃ x ∈ (SourceFile.ofText variant text).root.descendants, x.isLeaf = true
      ∧ x.Reached ⟨l.lineNumber, column⟩ ∧ x.extent.start = y.start
      ∧ x.extent.length = unitLength y.source := by
  have stands := standsOn_of_row hl row
  have inner := stands.inner y hy
  obtain ⟨here, number, abreast⟩ := stands.abreast
  have line := (abreast.pairwise.1 y hy).1.trans number
  rw [leavesOf_eq, List.mem_filterMap] at hy
  obtain ⟨x, hx, is⟩ := hy
  obtain ⟨mem, leaf⟩ := List.mem_filter.mp hx
  have own : x ∈ l.labels := by
    rw [Line.labels, row]
    refine List.mem_cons_of_mem _ ?_
    rw [Row.nodes, Frame.around, Rose.preorderAll_append, Rose.preorderAll_append]
    exact List.mem_append_left _ (List.mem_append_right _ mem)
  have kind : x.kind = y.kind := by
    obtain ⟨cs, -, rfl⟩ := Option.map_eq_some_iff.mp is
    rfl
  have isText : x.IsText := ⟨leaf, kind ▸ visible, fun last => by
    rw [← kind, last] at inner
    exact absurd inner (by decide)⟩
  obtain ⟨z, same, start, missing, length, inLine⟩ :=
    isText.exists_leaf (Everywhere.body kept_advances (.handler h) x mem)
  obtain rfl : z = y := Option.some.inj (same.symm.trans is)
  refine ⟨x, ?_, leaf, ⟨missing ▸ reached.there, isText.visible, isText.inText, start ▸ line,
    start ▸ reached.start, .inr ?_⟩, start.symm, length⟩
  · rw [descendants_root, map_label_spotsOf]
    exact List.mem_append_left _ (List.mem_flatMap_of_mem hl own)
  · rw [← start, length]
    exact reached.stop

/-- A leaf under the cursor on the line of a handler is a leaf of the handler, and a modifier if it
plays the part of one. -/
theorem exists_chosen
    (chosen : (SourceFile.ofText variant text).spotAt? ⟨l.lineNumber, column⟩ = some s)
    (leaf : s.label.isLeaf = true) : ∃ x, h.Chosen column x ∧ s.label.leaf? = some x
      ∧ ((x = h.sigil ∨ x = h.event ∨ x ∈ leavesOf h.nodesBehind) ∧ s.label.role ≠ .modifier
        ∨ x ∈ h.modifierLeaves ∧ s.label.role = .modifier) := by
  obtain ⟨isText, m, hm, number, -, mem⟩ := isText_of_spotAt? chosen leaf
  obtain rfl := Line.eq_of_lineNumber hm hl number
  have reached := (SourceFile.reached_of_spotAt? chosen).2
  have own := mem_leafLabels hl row mem isText
  obtain ⟨x, is, start, missing, length, inLine⟩ := isText.exists_leaf
    (Everywhere.body kept_advances (.handler h) s.label (List.mem_filter.mp own).1)
  have stop := reached.stop.resolve_left (by simp [inLine])
  refine ⟨x, ⟨⟨missing.trans reached.there, start ▸ reached.start, ?_⟩,
    fun y hy visible reachedY => ?_⟩, is, ?_⟩
  · rw [start, ← length]
    exact stop
  · obtain ⟨z, hz, leafZ, reachedZ, startZ, lengthZ⟩ := exists_label hl row hy visible reachedY
    have narrowest := narrowest_of_spotAt? chosen leaf hz leafZ reachedZ
    rwa [startZ, ← start, length, lengthZ] at narrowest
  · rw [Handler.leafLabels_nodes, List.mem_append, List.mem_append] at own
    rcases own with (front | modifier) | behind
    · left
      simp only [List.mem_cons, List.not_mem_nil, or_false] at front
      rcases front with label | label <;> rw [label] at is ⊢
      · exact ⟨.inl (Option.some.inj is).symm, fun role => by cases role⟩
      · exact ⟨.inr (.inl (Option.some.inj is).symm), fun role => by cases role⟩
    · obtain ⟨y, hy, label⟩ := List.mem_map.mp modifier
      rw [← label] at is ⊢
      exact .inr ⟨(Option.some.inj is : y = x) ▸ hy, rfl⟩
    · left
      refine ⟨.inr (.inr ?_), fun role => ?_⟩
      · rw [leavesOf_eq]
        exact List.mem_filterMap.mpr ⟨s.label, behind, is⟩
      · have plain : s.label.role = .part :=
          h.plain_nodesBehind s.label (List.mem_filter.mp behind).1
        exact absurd (role.symm.trans plain) (by decide)

end

theorem Handler.offersBehind_eq_nil {h : Handler} {i : Nat} : h.offersBehind i = []
    ↔ ∀ m ∈ Modifier.catalogue, m.label.toList ∈ (h.segments.take i).map fun p => p.2.text := by
  simp [Handler.offersBehind, List.filter_eq_nil_iff]

/-! ## 5. Files -/

section

variable {text : List Char} {l : Line} {f : Frame} {h : Handler} {dot item : Leaf}
  {later : List (Leaf × Leaf)}

/-- The columns of the line of a handler at which modifiers are offered. Between the first dot and
the end of the modifiers they are; at the two ends of that stretch it takes that the leaf next to it
is not under the cursor instead (`Handler.OpensAt`). The column lies in some segment. All is offered
that the segments before that one do not name, which is nothing only if they name the whole
catalogue. At no other column of the line anything is offered. -/
theorem modifiers_by_column (hl : l ∈ Line.withinAll (SourceFile.ofText .html text).lines)
    (row : l.row = .simple f (.handler h)) (segments : h.segments = (dot, item) :: later)
    (column : Nat) :
    let offer := (SourceFile.ofText .html text).modifiersAt ⟨l.lineNumber, column⟩
    (h.OpensAt dot column → ∃ i d a, h.segments[i]? = some (d, a) ∧ d.start.column ≤ column
      ∧ column ≤ a.stop.column ∧ offer = h.offersBehind i
      ∧ (offer = [] ↔ ∀ m ∈ Modifier.catalogue,
        m.label.toList ∈ (h.segments.take i).map fun p => p.2.text))
    ∧ (¬h.OpensAt dot column → offer = []) := by
  intro offer
  have stands := standsOn_of_row hl row
  have layout := stands.layout segments
  constructor
  · intro opens
    obtain ⟨y, hy, reached⟩ := stands.exists_reached layout opens
    obtain ⟨x, hx, leaf, reached, -⟩ :=
      exists_label hl row (Handler.mem_leaves hy) (stands.visible hy) reached
    obtain ⟨s, chosen, leaf⟩ := SourceFile.isLeaf_spotAt? rfl ⟨x, hx, leaf, reached⟩
    obtain ⟨x, own, is, ⟨other, -⟩ | ⟨mem, role⟩⟩ := exists_chosen hl row chosen leaf
    · exact absurd opens (stands.not_opensAt layout own other)
    · obtain ⟨isText, m, hm, number, -, hx⟩ := isText_of_spotAt? chosen leaf
      obtain rfl := Line.eq_of_lineNumber hm hl number
      obtain ⟨i, modifier⟩ := exists_hasModifier hl row hx isText role
      have offered := (modifiersAt_eq chosen hl modifier).2
      obtain ⟨-, d, a, at_i, label⟩ := modifier
      have side := Handler.rel_item layout.apart at_i
      have stop : a.stop.column = a.start.column + unitLength a.source := by
        rw [stands.stop_eq (Handler.item_mem at_i)]
        rfl
      have part : x = d ∨ x = a := by
        rcases label with label | label <;> rw [label] at is
        · exact .inl (Option.some.inj is).symm
        · exact .inr (Option.some.inj is).symm
      have inside : d.start.column ≤ column ∧ column ≤ a.stop.column := by
        have start := own.reached.start
        have reaches := own.reached.stop
        rcases part with rfl | rfl <;> omega
      refine ⟨i, d, a, at_i, inside.1, inside.2, offered, ?_⟩
      rw [← Handler.offersBehind_eq_nil, ← offered]
  · intro closed
    by_contra some_offer
    obtain ⟨s, chosen, offers⟩ := SourceFile.spot_of_modifiersAt some_offer
    have role := (Spot.role_of_modifiers offers).1
    have leaf := SourceFile.isLeaf_of_role chosen (by simp [role])
    obtain ⟨x, own, -, ⟨-, other⟩ | ⟨mem, -⟩⟩ := exists_chosen hl row chosen leaf
    · exact other role
    · exact closed (stands.opensAt layout own mem)

end

/-- A text with a handler whose modifiers are a dot and an item. -/
def sampleText : List Char := ['@', 'a', 'b', '.', 'c', 'd', '=', 'e']

def Handler.sample : Handler where
  sigil := ⟨.atSign, .origin, ['@'], false⟩
  event := ⟨.literal, ⟨1, 0, 1, 1⟩, ['a', 'b'], false⟩
  modifiers := some (⟨.dot, ⟨3, 0, 3, 3⟩, ['.'], false⟩,
    ⟨⟨.literal, ⟨4, 0, 4, 4⟩, ['c', 'd'], false⟩, []⟩)
  equals := ⟨.equals, ⟨6, 0, 6, 6⟩, ['='], false⟩
  action := ⟨.literal, ⟨7, 0, 7, 7⟩, ['e'], false⟩
  parameter := none

def Line.sample : Line :=
  .simple ⟨.origin, none, ⟨.endOfText, ⟨8, 0, 8, 8⟩, [], false⟩, []⟩ (.handler .sample)

theorem lines_sample : (SourceFile.ofText .html sampleText).lines = [.sample] := by
  with_unfolding_all rfl

theorem sample_mem : Line.sample ∈ Line.withinAll (SourceFile.ofText .html sampleText).lines := by
  rw [lines_sample, Line.withinAll]
  exact List.mem_append_left _ (Line.mem_within _)

/-- In the middle of the item modifiers are offered. At its end they are not, for the equals sign
there is narrower. -/
theorem modifiers_by_column_of_sample :
    let file := SourceFile.ofText .html sampleText
    (∃ i, file.modifiersAt ⟨0, 5⟩ = Handler.sample.offersBehind i)
      ∧ file.modifiersAt ⟨0, 6⟩ = [] := by
  intro file
  have inside : Handler.sample.OpensAt ⟨.dot, ⟨3, 0, 3, 3⟩, ['.'], false⟩ 5 := .inl (by decide)
  have closed : ¬Handler.sample.OpensAt ⟨.dot, ⟨3, 0, 3, 3⟩, ['.'], false⟩ 6 := by
    rintro (between | ⟨-, gone | ⟨last, is, narrow⟩⟩ | atDot)
    · exact absurd between (by decide)
    · exact absurd gone (by decide)
    · obtain rfl : last = ⟨.literal, ⟨4, 0, 4, 4⟩, ['c', 'd'], false⟩ :=
        Option.some.inj (is.symm.trans (by decide))
      exact absurd narrow (by decide)
    · exact absurd atDot (by decide)
  obtain ⟨i, -, -, -, -, -, offer, -⟩ := (modifiers_by_column sample_mem rfl rfl 5).1 inside
  exact ⟨⟨i, offer⟩, (modifiers_by_column sample_mem rfl rfl 6).2 closed⟩

/-- In the same text the columns are not those from the end of the dot to the end of the modifiers:
at the end nothing is offered, and in front of the dot the whole catalogue is. -/
theorem offered_in_front_of_dot :
    let file := SourceFile.ofText .html sampleText
    file.modifiersAt ⟨0, 6⟩ = [] ∧ file.modifiersAt ⟨0, 3⟩ = Modifier.catalogue
      ∧ ¬∀ l ∈ Line.withinAll file.lines, ∀ f h dot item later,
        l.row = .simple f (.handler h) → h.segments = (dot, item) :: later →
        ∀ column, file.modifiersAt ⟨l.lineNumber, column⟩ ≠ [] ↔
          dot.stop.column ≤ column ∧ column ≤ h.equals.start.column
            ∧ ∃ m ∈ Modifier.catalogue, ∀ p ∈ h.segments,
              p.2.stop.column < column → p.2.text ≠ m.label.toList := by
  intro file
  have offer (column : Nat) : file.modifiersAt ⟨0, column⟩
      = ((Spot.best? ((Line.spotsOf none [Line.sample]).filter
        fun s => s.isSolid && s.touches ⟨0, column⟩)).map Spot.modifiers).getD [] := by
    rw [← lines_sample]
    rfl
  have atEnd : file.modifiersAt ⟨0, 6⟩ = [] := (offer 6).trans rfl
  have atDot : file.modifiersAt ⟨0, 3⟩ = Modifier.catalogue := (offer 3).trans rfl
  refine ⟨atEnd, atDot, fun all => ?_⟩
  have opens := all _ sample_mem _ _ _ _ _ rfl rfl 3
  have early := opens.mp fun none => by cases atDot.symm.trans none
  exact absurd early.1 (by decide)

end OffsideMarkup
