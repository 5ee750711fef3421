/-
OffsideMarkup.Proofs.ModifierOffer — which modifiers are offered at the cursor.

With a modifier under the cursor, what is offered is the catalogue without what was said before.
What counts as before is decided by bytes: an item whose last byte is in front of the node under the
cursor. Leaves stand side by side and a leaf under the cursor has characters, so that these are just
the items of the segments before the one the node belongs to, also where items are missing
(`StandsOn.stop_le_iff`, `StandsOn.saidBefore_eq`).

Nothing is offered anywhere else (`exists_of_modifiersAt`). `modifiers_offered` puts both together.
-/
import OffsideMarkup.Proofs.HandlerLine

namespace OffsideMarkup

/-! ## 1. In front of a node -/

/-- Leaves side by side come in the order of their bytes. -/
theorem Abreast.pairwise_offset {here : Location} {ls : List Leaf} (h : Abreast here ls) :
    (∀ l ∈ ls, here.offset ≤ l.start.offset)
      ∧ ls.Pairwise fun a b => a.start.offset + byteLength a.source ≤ b.start.offset := by
  induction ls generalizing here with
  | nil => exact ⟨by simp, .nil⟩
  | cons l ls ih =>
    obtain ⟨rfl, later⟩ := h
    obtain ⟨behind, order⟩ := ih later
    refine ⟨List.forall_mem_cons.mpr ⟨Nat.le_refl _, fun m hm => ?_⟩, .cons behind order⟩
    exact (Nat.le_add_right ..).trans (behind m hm)

namespace Handler

/-- The modifiers to offer behind the first few segments: all that those do not name. -/
def offersBehind (h : Handler) (i : Nat) : List Modifier :=
  Modifier.catalogue.filter fun m =>
    !((h.segments.take i).map fun p => p.2.text).contains m.label.toList

variable {h : Handler} {k i j : Nat} {dot item dot' item' x : Leaf}

theorem mem_leaves (hx : x ∈ h.modifierLeaves) : x ∈ leavesOf (Body.handler h).nodes := by
  rw [leavesOf_nodes]
  exact List.mem_append_left _ (List.mem_append_right _ hx)

namespace StandsOn

variable (stands : h.StandsOn k)

include stands

theorem stop_eq (hx : x ∈ h.modifierLeaves) : x.stop = x.start.after x.source :=
  if_neg (Kind.isSilent_of_isInner (stands.inner x (mem_leaves hx))).2

theorem pairwise_offset : h.modifierLeaves.Pairwise fun a b =>
    a.start.offset + byteLength a.source ≤ b.start.offset := by
  obtain ⟨here, -, abreast⟩ := stands.abreast
  rw [leavesOf_nodes, abreast_append, abreast_append] at abreast
  exact abreast.1.2.pairwise_offset.2

/-- A leaf of the modifiers that is there has bytes. -/
theorem byteLength_dot (at_i : h.segments[i]? = some (dot, item)) : 0 < byteLength dot.source :=
  have ⟨⟨filled, there⟩, _⟩ := stands.segments _ (List.mem_of_getElem? at_i)
  byteLength_pos (filled.source_ne_nil there)

/-- The item of a segment ends in front of a leaf of the modifiers if the leaf belongs to a later
segment. -/
theorem stop_le_iff (at_i : h.segments[i]? = some (dot, item))
    (at_j : h.segments[j]? = some (dot', item')) (is : x = dot ∨ x = item)
    (there : x.missing = false) : item'.stop.offset ≤ x.start.offset ↔ j < i := by
  have order := stands.pairwise_offset
  have own := rel_item order at_i
  have other := rel_item order at_j
  have someDot := stands.byteLength_dot at_i
  have someDot' := stands.byteLength_dot at_j
  have stop : item'.stop.offset = item'.start.offset + byteLength item'.source := by
    rw [stands.stop_eq (item_mem at_j)]
    rfl
  have inside : dot.start.offset ≤ x.start.offset
      ∧ x.start.offset < item.start.offset + byteLength item.source := by
    rcases is with rfl | rfl
    · omega
    · have filled : x.Filled .literal := (stands.segments _ (List.mem_of_getElem? at_i)).2
      have someItem := byteLength_pos (filled.source_ne_nil there)
      omega
  rw [stop]
  rcases lt_trichotomy j i with less | rfl | greater
  · have before := rel_of_lt order at_j at_i less (.inr rfl) (.inl rfl)
    omega
  · obtain ⟨rfl, rfl⟩ := Prod.mk.inj (Option.some.inj (at_i.symm.trans at_j))
    omega
  · have behind := rel_of_lt order at_i at_j greater (.inr rfl) (.inl rfl)
    omega

/-- What is said in front of a leaf of the modifiers is said by the items of the segments before the
one it belongs to. -/
theorem saidBefore_eq {chain : Chain Leaf} (modifiers : h.modifiers.map (·.2) = some chain)
    (at_i : h.segments[i]? = some (dot, item)) (is : x = dot ∨ x = item)
    (there : x.missing = false) :
    chain.saidBefore x.start.offset = (h.segments.take i).map fun p => p.2.text := by
  have items : chain.items = h.segments.map Prod.snd := by
    obtain ⟨⟨first, own⟩, some_modifiers, rfl⟩ := Option.map_eq_some_iff.mp modifiers
    rw [segments, some_modifiers]
    rfl
  have front : ∀ p ∈ h.segments.take i, p.2.stop.offset ≤ x.start.offset := by
    intro p hp
    obtain ⟨j, hj, rfl⟩ := List.mem_take_iff_getElem.mp hp
    exact (stands.stop_le_iff at_i (List.getElem?_eq_getElem _) is there).mpr (by omega)
  have back : ∀ p ∈ h.segments.drop i, ¬p.2.stop.offset ≤ x.start.offset := by
    intro p hp
    obtain ⟨j, hj, rfl⟩ := List.mem_drop_iff_getElem.mp hp
    exact mt (stands.stop_le_iff at_i (List.getElem?_eq_getElem _) is there).mp (by omega)
  have kept : h.segments.filter (fun p => decide (p.2.stop.offset ≤ x.start.offset))
      = h.segments.take i := by
    conv_lhs => rw [← List.take_append_drop i h.segments, List.filter_append]
    rw [List.filter_eq_self.mpr (by simpa using front),
      List.filter_eq_nil_iff.mpr (by simpa using back), List.append_nil]
  rw [Chain.saidBefore, items, List.filter_map, List.map_map]
  exact congrArg (List.map fun p : Leaf × Leaf => p.2.text) kept

end StandsOn

end Handler

/-! ## 2. At the cursor -/

/-- Only in a handler there are modifiers. -/
theorem Row.exists_handler {r : Row} (some_chain : r.modifiers? ≠ none) :
    ∃ f h, r = .simple f (.handler h) := by
  rw [Row.modifiers?.eq_def] at some_chain
  split at some_chain
  · exact ⟨_, _, rfl⟩
  · exact absurd rfl some_chain

/-- Something is offered only at a modifier of a handler. -/
theorem Spot.role_of_modifiers {s : Spot} (offers : s.modifiers ≠ []) :
    s.label.role = .modifier ∧ s.row.modifiers? ≠ none := by
  rw [modifiers.eq_def] at offers
  split at offers
  · next role some_chain => exact ⟨role, by simp [some_chain]⟩
  · exact absurd rfl offers

theorem SourceFile.spot_of_modifiersAt {file : SourceFile} {p : Position}
    (some_offer : file.modifiersAt p ≠ []) :
    ∃ s, file.spotAt? p = some s ∧ s.modifiers ≠ [] := by
  rw [modifiersAt] at some_offer
  split at some_offer
  · cases chosen : file.spotAt? p with
    | none => exact absurd (by rw [chosen]; rfl) some_offer
    | some s => exact ⟨s, rfl, by simpa [chosen] using some_offer⟩
  · exact absurd rfl some_offer

section

variable {variant : Variant} {text : List Char} {p : Position} {s : Spot} {l : Line} {h : Handler}
  {i : Nat}

/-- Behind a segment the modifiers that those before it do not name are offered. -/
theorem Spot.modifiers_eq (hl : l ∈ Line.withinAll (SourceFile.ofText variant text).lines)
    (own : l.HasModifier h i s.label) (row : s.row = l.row) (there : s.label.missing = false) :
    s.modifiers = h.offersBehind i := by
  obtain ⟨⟨f, reads⟩, dot, item, at_i, is⟩ := own
  have stands := standsOn_of_row hl reads
  obtain ⟨first, chain, some_chain⟩ : ∃ first chain, h.modifiers = some (first, chain) := by
    cases some_modifiers : h.modifiers with
    | none => exact absurd at_i (by simp [Handler.segments, some_modifiers])
    | some p => exact ⟨p.1, p.2, rfl⟩
  have modifiers : h.modifiers.map (·.2) = some chain := by rw [some_chain]; rfl
  have found : s.row.modifiers? = some chain := by
    rw [row, reads]
    exact modifiers
  obtain ⟨x, hx, label⟩ : ∃ x, (x = dot ∨ x = item) ∧ s.label = (x.node .modifier).label :=
    is.elim (fun label => ⟨dot, .inl rfl, label⟩) (fun label => ⟨item, .inr rfl, label⟩)
  have role : s.label.role = .modifier := by rw [label]; rfl
  rw [label] at there
  have said := stands.saidBefore_eq modifiers at_i hx there
  rw [Spot.modifiers, role, found, label]
  dsimp only
  rw [show (x.node .modifier).label.extent.start = x.start from rfl, said]
  rfl

/-- Where something is offered, there is a modifier under the cursor. -/
theorem exists_of_modifiersAt (some_offer : (SourceFile.ofText variant text).modifiersAt p ≠ []) :
    ∃ s l h i, (SourceFile.ofText variant text).spotAt? p = some s
      ∧ l ∈ Line.withinAll (SourceFile.ofText variant text).lines
      ∧ l.HasModifier h i s.label := by
  obtain ⟨s, chosen, offers⟩ := SourceFile.spot_of_modifiersAt some_offer
  obtain ⟨role, some_chain⟩ := Spot.role_of_modifiers offers
  obtain ⟨f, h, reads⟩ := Row.exists_handler some_chain
  have leaf := SourceFile.isLeaf_of_role chosen (by simp [role])
  obtain ⟨isText, l, hl, -, row, mem⟩ := isText_of_spotAt? chosen leaf
  obtain ⟨i, own⟩ := exists_hasModifier hl (row.symm.trans reads) mem isText role
  exact ⟨s, l, h, i, chosen, hl, own⟩

/-- A modifier is on its line. -/
theorem Line.HasModifier.line_eq {x : Label} (own : l.HasModifier h i x)
    (hl : l ∈ Line.withinAll (SourceFile.ofText variant text).lines) :
    x.extent.start.line = l.lineNumber := by
  obtain ⟨⟨f, reads⟩, dot, item, at_i, is⟩ := own
  obtain ⟨here, number, abreast⟩ := (standsOn_of_row hl reads).abreast
  have lines : ∀ y ∈ h.modifierLeaves, y.start.line = l.lineNumber := fun y hy =>
    (abreast.pairwise.1 y (Handler.mem_leaves hy)).1.trans number
  rcases is with rfl | rfl
  · exact lines dot (Handler.mem_modifierLeaves.mpr ⟨i, dot, item, at_i, .inl rfl⟩)
  · exact lines item (Handler.item_mem at_i)

/-- With a modifier under the cursor, what is offered is up to the segments before it. -/
theorem modifiersAt_eq (chosen : (SourceFile.ofText .html text).spotAt? p = some s)
    (hl : l ∈ Line.withinAll (SourceFile.ofText .html text).lines)
    (own : l.HasModifier h i s.label) :
    l.lineNumber = p.line ∧ (SourceFile.ofText .html text).modifiersAt p = h.offersBehind i := by
  have leaf : s.label.isLeaf = true := by
    obtain ⟨-, dot, item, -, is | is⟩ := own <;> rw [is] <;> rfl
  have reached := (SourceFile.reached_of_spotAt? chosen).2
  have number : l.lineNumber = p.line := (own.line_eq hl).symm.trans reached.line
  obtain ⟨-, m, hm, same, row, -⟩ := isText_of_spotAt? chosen leaf
  obtain rfl := Line.eq_of_lineNumber hl hm (number.trans same.symm)
  refine ⟨number, ?_⟩
  show ((SourceFile.ofText .html text).spotAt? p |>.map Spot.modifiers).getD [] = _
  rw [chosen]
  exact Spot.modifiers_eq hl own row reached.there

end

/-! ## 3. Files -/

/-- What is offered at a position. Nothing is, unless the node under the cursor is a dot in the
modifiers of a handler, or the item behind one. There the whole catalogue is offered, in its order,
but for what the items in front of that node name; these are the items of the segments before the
one of the node, and no other part of the text has a say. -/
theorem modifiers_offered (text : List Char) (p : Position) :
    let file := SourceFile.ofText .html text
    (file.modifiersAt p = [] ∨ ∃ s l h i, file.spotAt? p = some s ∧ l ∈ Line.withinAll file.lines
      ∧ l.HasModifier h i s.label)
    ∧ (∀ s l h i, file.spotAt? p = some s → l ∈ Line.withinAll file.lines →
      l.HasModifier h i s.label →
      l.lineNumber = p.line ∧ file.modifiersAt p = h.offersBehind i
        ∧ ∀ j dot item, h.segments[j]? = some (dot, item) →
          (j < i ↔ item.stop.offset ≤ s.label.extent.start.offset))
    ∧ (SourceFile.ofText .unknown text).modifiersAt p = [] := by
  intro file
  refine ⟨?_, fun s l h i chosen hl own => ?_, rfl⟩
  · by_cases none : file.modifiersAt p = []
    · exact .inl none
    · exact .inr (exists_of_modifiersAt none)
  · obtain ⟨number, offer⟩ := modifiersAt_eq chosen hl own
    refine ⟨number, offer, fun j dot item at_j => ?_⟩
    have there := (SourceFile.reached_of_spotAt? chosen).2.there
    obtain ⟨⟨f, reads⟩, dot', item', at_i, is⟩ := own
    have stands := standsOn_of_row hl reads
    rcases is with label | label <;> rw [label] at there ⊢
    · exact (stands.stop_le_iff at_i at_j (.inl rfl) there).symm
    · exact (stands.stop_le_iff at_i at_j (.inr rfl) there).symm

end OffsideMarkup
