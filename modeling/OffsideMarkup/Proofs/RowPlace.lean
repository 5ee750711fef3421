/-
OffsideMarkup.Proofs.RowPlace — what is shown of a line depends on the number of the line alone.

In two texts the same line may start at different bytes. As long as its number is the same, an
editor is shown the same of it: a region is lines and columns, a piece or a hint stands at a column,
and what fits at the cursor is said by the words of the line. Bytes are compared in one place, where
the modifiers in front of the cursor are looked for (`Chain.saidBefore`), and both bytes are of one
line there, so that they move together.

Each lemma `f_congr` says this of one function `f` on the parts of a line, from the leaves up. What
does not know of places at all is the same as it was before the shift (`f_shift`).
-/
import OffsideMarkup.Editor.Fold
import OffsideMarkup.Editor.Highlight
import OffsideMarkup.Editor.KeyHint
import OffsideMarkup.Editor.Outline
import OffsideMarkup.Proofs.Cursor
import OffsideMarkup.Proofs.ReaderEnd

namespace OffsideMarkup

variable {base base' : Location} (line : base.line = base'.line)

/-! ## 1. Regions and findings -/

section

include line

theorem Position.shift_congr (p : Position) : p.shift base = p.shift base' := by
  rw [shift, shift, line]

theorem Region.shift_congr (r : Region) : r.shift base = r.shift base' := by
  rw [shift, shift, Position.shift_congr line, Position.shift_congr line]

theorem Extent.region_congr (e : Extent) : (e.shift base).region = (e.shift base').region := by
  rw [shift_region, shift_region, Region.shift_congr line]

theorem Leaf.line_congr (l : Leaf) : (l.shift base).start.line = (l.shift base').start.line :=
  congrArg (· + l.start.line) line

theorem Leaf.contentRegion_congr (l : Leaf) :
    (l.shift base).contentRegion = (l.shift base').contentRegion := by
  rw [contentRegion, contentRegion, shift_extent, shift_extent, Extent.shift_length,
    Extent.shift_length, Extent.shift_endColumn, Extent.shift_endColumn, line_congr line]
  rfl

/-- The tag of an element is where it is on its line. -/
theorem Tag.region_congr (t : Tag) :
    (t.shift base).node.label.extent.region = (t.shift base').node.label.extent.region := by
  rw [node_shift, node_shift, Node.shift_label, Node.shift_label]
  exact Extent.region_congr line _

/-- Without its bytes a finding moves with the number of its line. -/
theorem Diagnostic.withoutBytes_shift (d : Diagnostic) :
    (d.shift base).withoutBytes = (d.withoutBytes.shift base').withoutBytes := by
  have related : (d.related.map (·.shift base)).map Related.withoutBytes
      = ((d.related.map Related.withoutBytes).map (·.shift base')).map Related.withoutBytes := by
    rw [List.map_map, List.map_map, List.map_map]
    refine List.map_congr_left fun r _ => ?_
    show ({ r with span := ⟨0, 0⟩, region := r.region.shift base } : Related)
      = { r with span := ⟨0, 0⟩, region := r.region.shift base' }
    rw [Region.shift_congr line]
  show (⟨d.message, d.args, ⟨0, 0⟩, d.region.shift base,
    (d.related.map (·.shift base)).map Related.withoutBytes⟩ : Diagnostic) = _
  rw [Region.shift_congr line, related]
  rfl

theorem Diagnostic.map_shift_congr {ds ds' : List Diagnostic}
    (same : ds'.map withoutBytes = ds.map withoutBytes) :
    (ds'.map (·.shift base')).map withoutBytes = (ds.map (·.shift base)).map withoutBytes := by
  have apart : ∀ {b : Location} (ds : List Diagnostic), b.line = base'.line →
      (ds.map (·.shift b)).map withoutBytes
        = (ds.map withoutBytes).map fun d => (d.shift base').withoutBytes := by
    intro b ds line
    rw [List.map_map, List.map_map]
    exact List.map_congr_left fun d _ => d.withoutBytes_shift line
  rw [apart ds' rfl, apart ds line, same]

end

/-! ## 2. Highlights -/

namespace Highlight

section

include line

theorem ofLeaf_congr (meaning : Meaning) (l : Leaf) :
    ofLeaf meaning (l.shift base) = ofLeaf meaning (l.shift base') := by
  rw [ofLeaf, ofLeaf, Leaf.shift_extent, Leaf.shift_extent, Extent.shift_crossesLine,
    Extent.shift_crossesLine, Extent.shift_length, Extent.shift_length, Leaf.line_congr line]
  rfl

section

variable {α : Type} {item : α → List Highlight} {f f' : α → α}

theorem ofPair_congr (h : ∀ a, item (f a) = item (f' a)) (p : Option (Leaf × α)) :
    ofPair item (p.map (shiftPair f base)) = ofPair item (p.map (shiftPair f' base')) := by
  cases p with
  | none => rfl
  | some p => exact congrArg₂ (· ++ ·) (ofLeaf_congr line .operator p.1) (h p.2)

theorem ofChain_congr (h : ∀ a, item (f a) = item (f' a)) (c : Chain α) :
    ofChain item (c.shift f base) = ofChain item (c.shift f' base') := by
  have later : (c.tail.map (shiftPair f base)).flatMap (fun p => ofLeaf .operator p.1 ++ item p.2)
      = (c.tail.map (shiftPair f' base')).flatMap fun p => ofLeaf .operator p.1 ++ item p.2 := by
    rw [List.flatMap_map, List.flatMap_map]
    refine List.flatMap_congr fun p _ => ?_
    exact congrArg₂ (· ++ ·) (ofLeaf_congr line .operator p.1) (h p.2)
  exact congrArg₂ (· ++ ·) (h c.head) later

end

/-- Two leaves that come together or not at all. -/
theorem ofLeaves_congr (first second : Meaning) (p : Option (Leaf × Leaf)) :
    ((p.map (shiftPair (·.shift base) base)).elim [] fun (a, b) =>
        ofLeaf first a ++ ofLeaf second b)
      = (p.map (shiftPair (·.shift base') base')).elim [] fun (a, b) =>
        ofLeaf first a ++ ofLeaf second b := by
  cases p with
  | none => rfl
  | some p => exact congrArg₂ (· ++ ·) (ofLeaf_congr line first p.1) (ofLeaf_congr line second p.2)

theorem ofMustache_congr (m : Mustache) :
    ofMustache (m.shift base) = ofMustache (m.shift base') := by
  have path := ofChain_congr line (ofLeaf_congr line .expression) m.path
  have fallback := ofPair_congr line (ofLeaf_congr line .string) m.fallback
  show ofLeaf .mustacheStart (m.opening.shift base) ++ ofChain _ (m.path.shift _ base)
      ++ ofPair _ (m.fallback.map (shiftPair _ base)) ++ ofLeaf .mustacheEnd (m.closing.shift base)
    = _
  rw [path, fallback, ofLeaf_congr line, ofLeaf_congr line]
  rfl

theorem ofTemplate_congr (meaning : Meaning) (t : Template) :
    ofTemplate meaning (t.shift base) = ofTemplate meaning (t.shift base') := by
  rw [ofTemplate, ofTemplate]
  show (t.parts.map (·.shift base)).flatMap _ = (t.parts.map (·.shift base')).flatMap _
  rw [List.flatMap_map, List.flatMap_map]
  refine List.flatMap_congr fun p _ => ?_
  cases p with
  | literal l => exact ofLeaf_congr line meaning l
  | mustache m => exact ofMustache_congr line m

theorem ofValue_congr (v : Value) : ofValue (v.shift base) = ofValue (v.shift base') := by
  cases v with
  | mustache m => exact ofMustache_congr line m
  | template t => exact ofTemplate_congr line .string t

theorem ofTag_congr (t : Tag) : ofTag (t.shift base) = ofTag (t.shift base') := by
  have classes := ofPair_congr line
    (ofChain_congr line (ofTemplate_congr line .className)) t.classes
  have reference := ofLeaves_congr line .reference .reference t.reference
  show ofLeaf .elementStart (t.sigil.shift base) ++ ofLeaf .element (t.name.shift base)
      ++ ofPair _ (t.classes.map (shiftPair _ base))
      ++ (t.reference.map (shiftPair _ base)).elim [] _ = _
  rw [classes, reference, ofLeaf_congr line, ofLeaf_congr line]
  rfl

theorem ofBody_congr (b : Body) : ofBody (b.shift base) = ofBody (b.shift base') := by
  match b with
  | .comment none => rfl
  | .comment (some l) => exact ofLeaf_congr line .comment l
  | .attribute a =>
    have trigger := ofLeaves_congr line .event .event a.trigger
    have value := ofPair_congr line (ofValue_congr line) a.value
    show ofLeaf _ (a.sigil.shift base) ++ ofLeaf _ (a.binding.shift base)
        ++ (a.trigger.map (shiftPair _ base)).elim [] _ ++ ofPair _ (a.value.map (shiftPair _ base))
      = _
    rw [trigger, value, ofLeaf_congr line, ofLeaf_congr line]
    rfl
  | .handler h =>
    have modifiers := ofPair_congr line
      (ofChain_congr line (ofLeaf_congr line .modifier)) h.modifiers
    have parameter := ofPair_congr line (ofTemplate_congr line .string) h.parameter
    show ofLeaf .event (h.sigil.shift base) ++ ofLeaf .event (h.event.shift base)
        ++ ofPair _ (h.modifiers.map (shiftPair _ base)) ++ ofLeaf .operator (h.equals.shift base)
        ++ ofLeaf .expression (h.action.shift base) ++ ofPair _ (h.parameter.map (shiftPair _ base))
      = _
    rw [modifiers, parameter]
    simp only [ofLeaf_congr line]
    rfl
  | .text sigil content =>
    exact congrArg₂ (· ++ ·) (ofLeaf_congr line .operator sigil)
      (ofTemplate_congr line .string content)
  | .mountingPoint sigil name =>
    exact congrArg₂ (· ++ ·) (ofLeaf_congr line _ sigil) (ofLeaf_congr line _ name)

end

end Highlight

/-! ## 3. Hints and runs -/

theorem Chain.items_shift (c : Chain Leaf) :
    (c.shift (·.shift base) base).items = c.items.map (·.shift base) := by
  rw [items, items, List.map_cons, List.map_map]
  exact congrArg _ (List.map_map ..)

section

include line

theorem KeyHint.ofLeaf?_congr (l : Leaf) : ofLeaf? (l.shift base) = ofLeaf? (l.shift base') := by
  rw [ofLeaf?, ofLeaf?, Leaf.contentRegion_congr line]
  rfl

theorem Body.keyHints_congr (b : Body) : (b.shift base).keyHints = (b.shift base').keyHints := by
  have chain (c : Chain Leaf) : (c.shift (·.shift base) base).items.filterMap KeyHint.ofLeaf?
      = (c.shift (·.shift base') base').items.filterMap KeyHint.ofLeaf? := by
    rw [c.items_shift, c.items_shift, List.filterMap_map, List.filterMap_map]
    exact List.filterMap_congr fun l _ => KeyHint.ofLeaf?_congr line l
  match b with
  | .handler ⟨sigil, event, none, equals, action, parameter⟩ => rfl
  | .handler ⟨sigil, event, some (dot, c), equals, action, parameter⟩ => exact chain c
  | .comment _ => rfl
  | .attribute _ => rfl
  | .text _ _ => rfl
  | .mountingPoint _ _ => rfl

end

theorem Body.isBlank_shift (b : Body) : (b.shift base).isBlank = b.isBlank := by
  match b with
  | .comment none => rfl
  | .comment (some _) => rfl
  | .attribute _ => rfl
  | .handler _ => rfl
  | .text _ _ => rfl
  | .mountingPoint _ _ => rfl

theorem Line.runKey?_shift (f f' : Frame) (b : Body) :
    (Line.simple f (b.shift base)).runKey? = (Line.simple f' b).runKey? := by
  match b with
  | .comment none => rfl
  | .comment (some _) => rfl
  | .attribute _ => rfl
  | .handler _ => rfl
  | .text _ _ => rfl
  | .mountingPoint _ _ => rfl

/-! ## 4. Under the cursor -/

mutual
theorem Node.preorder_shift (t : Node) :
    (Node.shift base t).preorder = t.preorder.map (·.shift base) := by
  cases t with
  | node l ts =>
    rw [Node.shift, Rose.preorder, Node.preorderAll_shift ts, Rose.preorder, List.map_cons]

theorem Node.preorderAll_shift (ts : List Node) :
    Rose.preorderAll (Node.shiftAll base ts) = (Rose.preorderAll ts).map (·.shift base) := by
  cases ts with
  | nil => rfl
  | cons t ts =>
    rw [Node.shiftAll, Rose.preorderAll, Node.preorder_shift t, Node.preorderAll_shift ts,
      Rose.preorderAll, List.map_append]
end

namespace Row

variable (r : Row) (owner : Option (List Char))

theorem target?_shift : (r.shift base).target? owner = r.target? owner := by
  cases r with
  | element f t => rfl
  | simple f b => cases b <;> rfl

theorem subjectFragment?_shift :
    (r.shift base).subjectFragment? owner = r.subjectFragment? owner := by
  cases r with
  | element f t => rfl
  | simple f b => cases b <;> rfl

theorem triggerFragment?_shift :
    (r.shift base).triggerFragment? owner = r.triggerFragment? owner := by
  match r with
  | .element _ _ => rfl
  | .simple _ (.attribute ⟨_, _, none, _⟩) => rfl
  | .simple _ (.attribute ⟨_, _, some _, _⟩) => rfl
  | .simple _ (.comment _) => rfl
  | .simple _ (.handler _) => rfl
  | .simple _ (.text _ _) => rfl
  | .simple _ (.mountingPoint _ _) => rfl

theorem modifiers?_shift :
    (r.shift base).modifiers? = r.modifiers?.map fun c => c.shift (·.shift base) base := by
  match r with
  | .element _ _ => rfl
  | .simple _ (.handler ⟨_, _, none, _, _, _⟩) => rfl
  | .simple _ (.handler ⟨_, _, some _, _, _, _⟩) => rfl
  | .simple _ (.comment _) => rfl
  | .simple _ (.attribute _) => rfl
  | .simple _ (.text _ _) => rfl
  | .simple _ (.mountingPoint _ _) => rfl

end Row

/-- A byte of the line moves with the modifiers of the line. -/
theorem Chain.saidBefore_shift (c : Chain Leaf) (offset : Nat) :
    (c.shift (·.shift base) base).saidBefore (base.offset + offset) = c.saidBefore offset := by
  have front : ((fun l : Leaf => decide (l.stop.offset ≤ base.offset + offset))
      ∘ fun l : Leaf => l.shift base) = fun l : Leaf => decide (l.stop.offset ≤ offset) := by
    funext l
    rw [Function.comp_apply, Leaf.shift_stop]
    exact decide_eq_decide.mpr (Nat.add_le_add_iff_left ..)
  rw [saidBefore, saidBefore, items_shift, List.filter_map, List.map_map, front]
  rfl

namespace Spot

section

variable (l : Label) (r : Row) (owner : Option Tag)

theorem modifiers_shift :
    (⟨l.shift base, r.shift base, owner⟩ : Spot).modifiers = (⟨l, r, owner⟩ : Spot).modifiers := by
  obtain ⟨role, kind, extent, missing, source, level⟩ := l
  have said (c : Chain Leaf) : (c.shift (·.shift base) base).saidBefore
      (extent.shift base).start.offset = c.saidBefore extent.start.offset :=
    c.saidBefore_shift extent.start.offset
  rw [modifiers, modifiers]
  dsimp only [Label.shift]
  rw [Row.modifiers?_shift]
  cases role <;> cases r.modifiers? <;> simp only [Option.map_none, Option.map_some, said]

theorem target?_shift :
    (⟨l.shift base, r.shift base, owner⟩ : Spot).target? = (⟨l, r, owner⟩ : Spot).target? := by
  rw [target?, target?]
  dsimp only
  rw [Row.target?_shift]
  rfl

theorem hover?_shift :
    (⟨l.shift base, r.shift base, owner⟩ : Spot).hover? = (⟨l, r, owner⟩ : Spot).hover? := by
  rw [hover?, hover?]
  dsimp only
  rw [Row.subjectFragment?_shift, Row.triggerFragment?_shift]
  rfl

end

end Spot

/-- What a line declares, as a line. -/
def Reader.Content.row (f : Frame) : Reader.Content → Row
  | .element t => .element f t
  | .simple b => .simple f b

/-- A part of a line has the same answers in both texts. What belongs to its frame does not count,
and of the element around it the name. -/
theorem Spot.alike_shift (line : base.line = base'.line) {owner owner' : Option Tag}
    (names : owner'.map (·.name.text) = owner.map (·.name.text)) (c : Reader.Content)
    (f f' : Frame) (l : Label) :
    Alike ⟨l.shift base, (c.row f).shift base, owner⟩
      ⟨l.shift base', (c.row f').shift base', owner'⟩ := by
  have name : (⟨l, c.row f', owner'⟩ : Spot).ownerName? = (⟨l, c.row f, owner⟩ : Spot).ownerName? :=
    congrArg (Option.filter _) names
  refine ⟨rfl, ?_, ?_, ?_, ?_, ?_⟩
  · exact (Extent.shift_length _ _).trans (Extent.shift_length _ _).symm
  · have number : (l.extent.shift base').start.line = (l.extent.shift base).start.line :=
      congrArg (· + l.extent.start.line) line.symm
    funext p
    simp only [touches, Label.shift, Extent.shift_crossesLine, Extent.shift_length, number]
    rfl
  · rw [modifiers_shift, modifiers_shift]
    cases c with
    | element t => rfl
    | simple b => cases b <;> rfl
  · rw [target?_shift, target?_shift, target?, target?, name]
    cases c with
    | element t => rfl
    | simple b => cases b <;> rfl
  · rw [hover?_shift, hover?_shift, hover?, hover?, name]
    cases c with
    | element t => rfl
    | simple b => cases b <;> rfl

end OffsideMarkup
