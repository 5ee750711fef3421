/-
OffsideMarkup.Proofs.Cursor — which spot is under the cursor.

The spot at a position is chosen in one pass over all that touch it. Two laws of that choice are
enough for whoever compares two files. A leaf beats every composite node, so that a leaf that is
chosen is the best of the leaves (`filter_best?`). And the choice looks at nothing but what is a
leaf and how long it is, so that spots that are alike are chosen alike (`best?_alike`).

A composite node is just a part of its line (`role_of_composite`), and about a part there is nothing
to say. So what a cursor feature answers is decided by the leaves alone (`answer_congr`).
-/
import Mathlib.Data.List.Basic
import Mathlib.Data.List.Forall2
import Mathlib.Data.List.Induction
import OffsideMarkup.Editor.Completion
import OffsideMarkup.Editor.Hover
import OffsideMarkup.Proofs.NodeLabels

namespace OffsideMarkup

namespace Spot

/-! ## 1. The choice -/

theorem best?_concat (ss : List Spot) (s : Spot) :
    best? (ss ++ [s]) = some ((best? ss).elim s fun b => if s.beats b then s else b) := by
  rw [best?, List.foldl_concat, ← best?]
  cases best? ss with
  | none => rfl
  | some b => exact (apply_ite some _ _ _).symm

/-- The best of some spots is one of them. -/
theorem mem_of_best? {ss : List Spot} {s : Spot} (h : best? ss = some s) : s ∈ ss := by
  induction ss using List.reverseRecOn generalizing s with
  | nil => exact absurd h (by simp [best?])
  | append_singleton ss t ih =>
    rw [best?_concat] at h
    obtain rfl := Option.some.inj h
    cases chosen : best? ss with
    | none => simp
    | some b =>
      rw [Option.elim_some]
      split
      · simp
      · exact List.mem_append_left _ (ih chosen)

theorem beats_of_leaf {s t : Spot} (leaf : s.label.isLeaf = true)
    (composite : t.label.isLeaf = false) : s.beats t = true := by
  rw [beats, leaf, composite]
  rfl

theorem not_beats_of_composite {s t : Spot} (composite : s.label.isLeaf = false)
    (leaf : t.label.isLeaf = true) : s.beats t = false := by
  rw [beats, leaf, composite]
  rfl

theorem filter_some_leaf {s : Spot} (leaf : s.label.isLeaf = true) :
    (some s).filter (·.label.isLeaf) = some s := by simp [leaf]

theorem filter_some_composite {s : Spot} (composite : s.label.isLeaf = false) :
    (some s).filter (·.label.isLeaf) = none := by simp [composite]

/-- If a leaf is chosen, it is the best of the leaves, and otherwise there is none. -/
theorem filter_best? (ss : List Spot) :
    (best? ss).filter (·.label.isLeaf) = best? (ss.filter (·.label.isLeaf)) := by
  induction ss using List.reverseRecOn with
  | nil => rfl
  | append_singleton ss s ih =>
    rw [List.filter_append, best?_concat]
    cases leaf : s.label.isLeaf with
    | true =>
      have own : [s].filter (·.label.isLeaf) = [s] := by simp [leaf]
      rw [own, best?_concat, ← ih]
      cases best? ss with
      | none => exact filter_some_leaf leaf
      | some b =>
        rw [Option.elim_some]
        cases other : b.label.isLeaf with
        | true =>
          rw [filter_some_leaf other, Option.elim_some]
          split
          · exact filter_some_leaf leaf
          · exact filter_some_leaf other
        | false =>
          rw [filter_some_composite other, beats_of_leaf leaf other]
          exact filter_some_leaf leaf
    | false =>
      have own : [s].filter (·.label.isLeaf) = [] := by simp [leaf]
      rw [own, List.append_nil, ← ih]
      cases best? ss with
      | none => exact filter_some_composite leaf
      | some b =>
        rw [Option.elim_some]
        cases other : b.label.isLeaf with
        | true => rw [not_beats_of_composite leaf other]; rfl
        | false =>
          rw [filter_some_composite other]
          split
          · exact filter_some_composite leaf
          · exact filter_some_composite other

/-! ## 2. Spots that are alike -/

/-- Two spots with the same answers that are under the cursor at the same places, and beat others
alike. -/
structure Alike (s s' : Spot) : Prop where
  leaf : s'.label.isLeaf = s.label.isLeaf
  length : s'.label.extent.length = s.label.extent.length
  touches : s'.touches = s.touches
  modifiers : s'.modifiers = s.modifiers
  target : s'.target? = s.target?
  hover : s'.hover? = s.hover?

theorem Alike.beats {s s' t t' : Spot} (h : s.Alike s') (h' : t.Alike t') :
    s'.beats t' = s.beats t := by
  rw [Spot.beats, Spot.beats, h.leaf, h'.leaf, h.length, h'.length]

/-- Of spots that are alike, the best ones are. -/
theorem best?_alike {ss ss' : List Spot} (h : List.Forall₂ Alike ss ss') :
    Option.Rel Alike (best? ss) (best? ss') := by
  refine List.rel_foldl (fun best best' chosen s s' alike => ?_) .none h
  cases chosen with
  | none => exact .some alike
  | @some b b' chosen =>
    show Option.Rel Alike (if s.beats b then some s else some b)
      (if s'.beats b' then some s' else some b')
    rw [alike.beats chosen]
    split
    · exact .some alike
    · exact .some chosen

end Spot

/-! ## 3. What the cursor finds -/

/-- A leaf that may be under the cursor. -/
def Spot.isTarget (s : Spot) : Bool := s.label.isLeaf && s.isSolid

/-- A composite node plays no part in its line. -/
theorem kept_role : Kept fun l => l.isLeaf = false → l.role = .part where
  leaf _ _ := fun composite => absurd composite (by simp [Leaf.node, Rose.label, Label.isLeaf])
  part _ _ _ _ := fun _ => rfl

theorem Line.role_of_composite (owner : Option Tag) (ls : List Line) :
    ∀ s ∈ Line.spotsOf owner ls, s.label.isLeaf = false → s.label.role = .part := by
  have row (l : Line) (r : Row) (owner : Option Tag) : ∀ s ∈
      ((l.node.label :: Rose.preorderAll r.nodes).map (⟨·, r, owner⟩) : List Spot),
      s.label.isLeaf = false → s.label.role = .part := by
    refine List.forall_mem_map.mpr (List.forall_mem_cons.mpr ⟨fun _ => ?_, ?_⟩)
    · cases l <;> rw [Line.node] <;> rfl
    · exact Everywhere.row kept_role r
  match ls with
  | [] => exact fun s hs => absurd hs (by simp [spotsOf])
  | .simple f b :: ls =>
    rw [spotsOf, spots, List.forall_mem_append]
    exact ⟨row _ _ owner, role_of_composite owner ls⟩
  | .element f t inner :: ls =>
    rw [spotsOf, spots, List.forall_mem_append, List.forall_mem_append]
    exact ⟨⟨row _ _ owner, role_of_composite (some t) inner⟩, role_of_composite owner ls⟩
termination_by sizeOf ls

namespace SourceFile

/-- The leaves of a file that may be under the cursor. -/
def targets (f : SourceFile) : List Spot := (Line.spotsOf none f.lines).filter Spot.isTarget

/-- If a leaf is under the cursor, it is the best of the leaves there. -/
theorem filter_spotAt? (f : SourceFile) (p : Position) :
    (f.spotAt? p).filter (·.label.isLeaf) = Spot.best? (f.targets.filter (·.touches p)) := by
  rw [spotAt?, Spot.filter_best?, List.filter_filter, targets, List.filter_filter]
  refine congrArg Spot.best? (List.filter_congr fun s _ => ?_)
  rw [Spot.isTarget, Bool.and_comm (s.touches p), Bool.and_assoc]

/-- Where there is nothing to say about a part of a line, the leaves decide. -/
theorem elim_spotAt? {β : Type} {nothing : β} {g : Spot → β}
    (quiet : ∀ s : Spot, s.label.role = .part → g s = nothing) (f : SourceFile) (p : Position) :
    (f.spotAt? p).elim nothing g
      = (Spot.best? (f.targets.filter (·.touches p))).elim nothing g := by
  rw [← filter_spotAt?]
  cases found : f.spotAt? p with
  | none => rfl
  | some s =>
    cases leaf : s.label.isLeaf with
    | true => rw [Spot.filter_some_leaf leaf]
    | false =>
      have there : s ∈ Line.spotsOf none f.lines :=
        (List.mem_filter.mp (Spot.mem_of_best? found)).1
      rw [Spot.filter_some_composite leaf]
      exact quiet s (Line.role_of_composite none f.lines s there leaf)

/-- Files whose leaves are alike answer alike. -/
theorem elim_spotAt?_congr {f f' : SourceFile} (h : List.Forall₂ Spot.Alike f.targets f'.targets)
    {β : Type} {nothing : β} {g : Spot → β}
    (quiet : ∀ s : Spot, s.label.role = .part → g s = nothing)
    (same : ∀ s s' : Spot, s.Alike s' → g s' = g s) (p : Position) :
    (f'.spotAt? p).elim nothing g = (f.spotAt? p).elim nothing g := by
  have touching : List.Forall₂ Spot.Alike (f.targets.filter (·.touches p))
      (f'.targets.filter (·.touches p)) := by
    refine List.rel_filter (fun s s' alike => ?_) h
    show s.touches p = true ↔ s'.touches p = true
    rw [alike.touches]
  have chosen := Spot.best?_alike touching
  rw [elim_spotAt? quiet, elim_spotAt? quiet]
  generalize Spot.best? (f.targets.filter (·.touches p)) = best at chosen ⊢
  generalize Spot.best? (f'.targets.filter (·.touches p)) = best' at chosen ⊢
  cases chosen with
  | none => rfl
  | some alike => exact same _ _ alike

end SourceFile

namespace Spot

variable {s : Spot} (h : s.label.role = .part)

include h

theorem modifiers_of_part : s.modifiers = [] := by
  rw [modifiers, h]

theorem target?_of_part : s.target? = none := by
  rw [target?, h]
  rfl

theorem hover?_of_part : s.hover? = none := by
  rw [hover?, h]

end Spot

theorem bind_eq_elim {α β : Type} (o : Option α) (g : α → Option β) :
    o.bind g = o.elim none g := by cases o <;> rfl

namespace SourceFile

variable {f f' : SourceFile} (h : List.Forall₂ Spot.Alike f.targets f'.targets)

include h

theorem hoverAt?_congr (p : Position) : f'.hoverAt? p = f.hoverAt? p := by
  have same := elim_spotAt?_congr h (fun _ => Spot.hover?_of_part) (fun _ _ alike => alike.hover) p
  rw [hoverAt?, hoverAt?, bind_eq_elim, bind_eq_elim, same]

variable (variant : f'.variant = f.variant)

include variant

theorem modifiersAt_congr (p : Position) : f'.modifiersAt p = f.modifiersAt p := by
  have same := elim_spotAt?_congr h (fun _ => Spot.modifiers_of_part)
    (fun _ _ alike => alike.modifiers) p
  rw [modifiersAt, modifiersAt, variant]
  cases f.variant with
  | unknown => rfl
  | html =>
    have all (o : Option Spot) : (o.map Spot.modifiers).getD [] = o.elim [] Spot.modifiers := by
      cases o <;> rfl
    dsimp only
    rw [all, all, same]

theorem targetAt?_congr (p : Position) : f'.targetAt? p = f.targetAt? p := by
  have same := elim_spotAt?_congr h (fun _ => Spot.target?_of_part)
    (fun _ _ alike => alike.target) p
  rw [targetAt?, targetAt?, variant]
  cases f.variant with
  | unknown => rfl
  | html =>
    dsimp only
    rw [bind_eq_elim, bind_eq_elim, same]

end SourceFile

end OffsideMarkup
