/-
OffsideMarkup.Proofs.ReaderTiling — every reader puts all it takes into the tree.

`Fills r view` says that the nodes made of a reader's answer fill the stretch from the first token
the reader was given to the first one it has left, with the text of the tokens between. Whatever is
taken is then somewhere in the tree, once and in its place, and whatever was missing takes no place.
There is one lemma for each reader: for a loop by induction over what is left, for a composition by
joining the parts at their ends (`Covers.append`).

The tokens given have to be the rest of a line (`InLine`), since that is what makes a token start
where the one before it stops. A reader leaves an end of what it was given, so its parts are given
the rest of a line again.
-/
import OffsideMarkup.Proofs.ReaderLaws
import OffsideMarkup.Proofs.Tiling

namespace OffsideMarkup

open Node

/-- Nodes that fill the place of the tokens that were taken, with their text. -/
def Covers (stop : Token) (given rest : List Token) (nodes : List Node) : Prop :=
  ∃ taken, given = taken ++ rest
    ∧ Fill (nextStart stop given) (nextStart stop rest) (taken.flatMap Token.source) nodes

namespace Covers

variable {stop t : Token} {ts given mid rest : List Token} {nodes others : List Node}

theorem nil (stop : Token) (given : List Token) : Covers stop given given [] :=
  ⟨[], rfl, Fill.nil _⟩

theorem append (h : Covers stop given mid nodes) (h' : Covers stop mid rest others) :
    Covers stop given rest (nodes ++ others) := by
  obtain ⟨front, rfl, first⟩ := h
  obtain ⟨back, rfl, second⟩ := h'
  refine ⟨front ++ back, (List.append_assoc ..).symm, ?_⟩
  rw [List.flatMap_append]
  exact first.append second

theorem compose (h : Covers stop given rest nodes) (kind : Kind) :
    Covers stop given rest [Node.compose kind (nextStart stop given) nodes none] := by
  obtain ⟨taken, split, fill⟩ := h
  exact ⟨taken, split, fill.compose kind none⟩

/-- The first token, as a leaf. -/
theorem head (line : InLine stop (t :: ts)) (role : Role) :
    Covers stop (t :: ts) ts [(Leaf.ofToken t).node role] := by
  refine ⟨[t], rfl, ?_⟩
  rw [← line.stop_head, List.flatMap_singleton]
  exact fill_ofToken t role

theorem absent {kind : Kind} (h : kind ≠ .lineBreak) (stop : Token) (given : List Token)
    (role : Role) :
    Covers stop given given [(Leaf.absent kind (nextStart stop given)).node role] :=
  ⟨[], rfl, fill_absent h _ role⟩

/-- All of what was given, if nothing is left. -/
theorem whole (h : Covers stop given [] nodes) :
    Fill (nextStart stop given) stop.start (given.flatMap Token.source) nodes := by
  obtain ⟨taken, split, fill⟩ := h
  rw [List.append_nil] at split
  subst split
  exact fill

end Covers

namespace Reader

variable {α β : Type} {stop t : Token} {ts given : List Token}

/-- The nodes of what a reader answers cover what it has taken. -/
def Fills (r : Reader α) (view : α → List Node) : Prop :=
  ∀ stop given, InLine stop given →
    Covers stop given (r stop given).rest (view (r stop given).value)

/-- What a reader has left is the rest of the line again. -/
theorem inLine_rest (r : Reader α) (line : InLine stop given) : InLine stop (r stop given).rest :=
  line.of_suffix (r stop given).rest_suffix

/-! ## 1. Single leaves -/

theorem fills_literal (stops : KindSet) (role : Role) :
    Fills (literal stops) fun l => [l.node role] := by
  intro stop given line
  have parts : given.takeWhile (fun t => !stops.has t.kind)
      ++ given.dropWhile (fun t => !stops.has t.kind) = given := List.takeWhile_append_dropWhile
  have behind := InLine.nextStart_append (parts.symm ▸ line)
  rw [parts] at behind
  have fill := fill_literal (nextStart stop given)
    (given.takeWhile fun t => !stops.has t.kind) role
  rw [behind] at fill
  exact ⟨_, parts.symm, fill⟩

theorem fills_name (stops : KindSet) (role : Role) : Fills (name stops) fun l => [l.node role] := by
  intro stop given line
  cases given with
  | nil =>
    rw [name_of_stop (by simp)]
    exact Covers.absent (by decide) stop _ role
  | cons t ts =>
    cases h : stops.has t.kind with
    | true =>
      rw [name_of_stop (by simpa using h)]
      exact Covers.absent (by decide) stop _ role
    | false =>
      rw [name_of_content h]
      exact fills_literal stops role stop (t :: ts) line

theorem fills_expect (kind : Kind) (inner : kind ≠ .lineBreak) (role : Role) :
    Fills (expect kind) fun l => [l.node role] := by
  intro stop given line
  rcases head_cases kind given with ⟨t, ts, rfl, h⟩ | other
  · rw [expect_of_kind h]
    exact Covers.head line role
  · rw [expect_of_other other]
    exact Covers.absent inner stop _ role

/-! ## 2. Optional parts and chains -/

theorem fills_behind (kind : Kind) {r : Reader α} {view : α → Node} (role : Role)
    (h : Fills r fun a => [view a]) : Fills (behind kind r) (pairNodes (·.node role) view) := by
  intro stop given line
  rcases head_cases kind given with ⟨t, ts, rfl, is⟩ | other
  · rw [behind_of_kind r is]
    exact (Covers.head line role).append (h stop ts line.tail)
  · rw [behind_of_other r other]
    exact Covers.nil stop _

theorem fills_dotted {item : Reader α} {view : α → Node} (role : Role)
    (h : Fills item fun a => [view a]) :
    Fills (dotted item) fun later => later.flatMap fun (dot, a) => [dot.node role, view a] := by
  intro stop given
  induction given using dotted.induct item stop with
  | case1 =>
    intro line
    rw [dotted_of_other item (by simp)]
    exact Covers.nil stop _
  | case2 t ts dot first ih =>
    intro line
    rw [dotted_of_dot item dot]
    have later := ih (inLine_rest item line.tail)
    exact (Covers.head line role).append ((h stop ts line.tail).append later)
  | case3 t ts dot =>
    intro line
    rw [dotted_of_other item (by simpa using dot)]
    exact Covers.nil stop _

/-- A chain starts where its first item does. -/
theorem fills_chain {item : Reader α} {view : α → Node} (role : Role)
    (h : Fills item fun a => [view a]) : Fills (chain item) fun c => [c.node role view] := by
  intro stop given line
  have first := h stop given line
  have later := fills_dotted role h stop _ (inLine_rest item line)
  have whole := (first.append later).compose .chain
  have start : (view (item stop given).value).label.extent.start = nextStart stop given := by
    obtain ⟨taken, -, fill⟩ := first
    exact fill.tile.1
  show Covers _ _ _ [Node.compose .chain (view (item stop given).value).label.extent.start _ none]
  rw [start]
  exact whole

/-! ## 3. Holes, templates and values -/

/-- A hole, its opening braces included. -/
theorem covers_mustache (line : InLine stop (t :: ts)) :
    Covers stop (t :: ts) (mustacheBehind (.ofToken t) stop ts).rest
      [(mustacheBehind (.ofToken t) stop ts).value.node] := by
  have opening := Covers.head line .part
  have path := fills_chain .part (fills_name (.ofList [.dot, .equals, .mustacheClose]) .part)
    stop ts line.tail
  have behindPath := inLine_rest (chain (name (.ofList [.dot, .equals, .mustacheClose]))) line.tail
  have fallback := fills_behind .equals .part (fills_literal (.ofList [.mustacheClose]) .part)
    stop _ behindPath
  have behindText := inLine_rest (behind .equals (literal (.ofList [.mustacheClose]))) behindPath
  have closing := fills_expect .mustacheClose (by decide) .part stop _ behindText
  exact (((opening.append path).append fallback).append closing).compose .mustache

theorem fills_parts (stops : KindSet) : Fills (parts stops) (·.map TemplatePart.node) := by
  intro stop given
  induction given using parts.induct stops stop with
  | case1 =>
    intro line
    rw [parts_of_stop (by simp)]
    exact Covers.nil stop _
  | case2 t ts h =>
    intro line
    rw [parts_of_stop (by simpa using h)]
    exact Covers.nil stop _
  | case3 t ts go h hole ih =>
    intro line
    rw [parts_of_hole (by simpa using go) h]
    exact (covers_mustache line).append (ih (inLine_rest (mustacheBehind (.ofToken t)) line.tail))
  | case4 t ts go h inside ih =>
    intro line
    have piece := fills_literal (stops.insert .mustacheOpen) .part stop (t :: ts) line
    rw [literal_of_content (by simp [KindSet.insert, h, by simpa using go])] at piece
    rw [parts_of_literal (by simpa using go) h]
    exact piece.append (ih (line.tail.of_suffix (List.dropWhile_suffix _)))

theorem fills_template (stops : KindSet) : Fills (template stops) fun t => [t.node] := by
  intro stop given line
  exact (fills_parts stops stop given line).compose .template

/-- The hole that was tried and given up leaves no trace: the template fills the same place. -/
theorem fills_value : Fills value fun v => [v.node] := by
  intro stop given line
  by_cases h : IsLone stop given
  · obtain ⟨t, ts, rfl, opening, lone⟩ := h
    rw [value_of_lone opening lone]
    exact covers_mustache line
  · rw [value_of_template h]
    exact fills_template .empty stop given line

/-! ## 4. The forms of a line -/

theorem covers_tag (line : InLine stop (t :: ts)) :
    Covers stop (t :: ts) (tagBehind (.ofToken t) stop ts).rest
      [(tagBehind (.ofToken t) stop ts).value.node] := by
  have sigil := Covers.head line .sigil
  have name := fills_name (.ofList [.dot, .hashSign]) .subject stop ts line.tail
  have behindName := inLine_rest (Reader.name (.ofList [.dot, .hashSign])) line.tail
  have classes := fills_behind .dot .part
    (fills_chain .part (fills_template (.ofList [.dot, .hashSign]))) stop _ behindName
  have behindClasses := inLine_rest
    (behind .dot (chain (template (.ofList [.dot, .hashSign])))) behindName
  have reference := fills_behind .hashSign .part (fills_name .empty .part) stop _ behindClasses
  exact (((sigil.append name).append classes).append reference).compose .tag

theorem covers_attribute (line : InLine stop (t :: ts)) :
    Covers stop (t :: ts) (attributeBehind (.ofToken t) stop ts).rest
      (Body.attribute (attributeBehind (.ofToken t) stop ts).value).nodes := by
  have sigil := Covers.head line .sigil
  have binding := fills_name (.ofList [.equals]) .subject stop ts line.tail
  have behindBinding := inLine_rest (name (.ofList [.equals])) line.tail
  have value := fills_behind .equals .part fills_value stop _ behindBinding
  exact (((sigil.append binding).append (Covers.nil stop _)).append value)

theorem covers_property (line : InLine stop (t :: ts)) :
    Covers stop (t :: ts) (propertyBehind (.ofToken t) stop ts).rest
      (Body.attribute (propertyBehind (.ofToken t) stop ts).value).nodes := by
  have sigil := Covers.head line .sigil
  have binding := fills_name (.ofList [.equals, .atSign]) .subject stop ts line.tail
  have behindBinding := inLine_rest (name (.ofList [.equals, .atSign])) line.tail
  have trigger := fills_behind .atSign .trigger (fills_name (.ofList [.equals]) .trigger)
    stop _ behindBinding
  have behindTrigger := inLine_rest (behind .atSign (name (.ofList [.equals]))) behindBinding
  have value := fills_behind .equals .part fills_value stop _ behindTrigger
  exact (((sigil.append binding).append trigger).append value)

theorem covers_handler (line : InLine stop (t :: ts)) :
    Covers stop (t :: ts) (handlerBehind (.ofToken t) stop ts).rest
      (Body.handler (handlerBehind (.ofToken t) stop ts).value).nodes := by
  have sigil := Covers.head line .sigil
  have event := fills_name (.ofList [.dot, .equals]) .subject stop ts line.tail
  have behindEvent := inLine_rest (name (.ofList [.dot, .equals])) line.tail
  have modifiers := fills_behind .dot .modifier
    (fills_chain .modifier (fills_name (.ofList [.dot, .equals]) .modifier)) stop _ behindEvent
  have behindModifiers := inLine_rest
    (behind .dot (chain (name (.ofList [.dot, .equals])))) behindEvent
  have equals := fills_expect .equals (by decide) .part stop _ behindModifiers
  have behindEquals := inLine_rest (expect .equals) behindModifiers
  have action := fills_name (.ofList [.colon]) .part stop _ behindEquals
  have behindAction := inLine_rest (name (.ofList [.colon])) behindEquals
  have parameter := fills_behind .colon .part (fills_template .empty) stop _ behindAction
  exact (((sigil.append event).append modifiers).append (equals.append action)).append parameter

/-- The nodes of what a line declares. -/
def Content.nodes : Content → List Node
  | .element tag => [tag.node]
  | .simple body => body.nodes

theorem fills_content : Fills content Content.nodes := by
  intro stop given line
  cases given with
  | nil => exact Covers.nil stop _
  | cons t ts =>
    rw [content]
    dsimp only
    split
    · exact covers_tag line
    · exact covers_attribute line
    · exact covers_property line
    · exact covers_handler line
    · exact (Covers.head line .sigil).append (fills_template .empty stop ts line.tail)
    · exact (Covers.head line .sigil).append (fills_template .empty stop ts line.tail)
    · exact (Covers.head line .sigil).append (fills_name .empty .subject stop ts line.tail)
    · exact (Covers.head line .sigil).append (fills_name .empty .subject stop ts line.tail)
    · exact Covers.head line .part
    · exact fills_literal .empty .part stop (t :: ts) line

end Reader

end OffsideMarkup
