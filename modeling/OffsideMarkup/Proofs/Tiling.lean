/-
OffsideMarkup.Proofs.Tiling — trees without gaps.

`Node.Sound` is what makes a tree of nodes a faithful picture of a stretch of text: the children of
a composite node fill its extent from end to end, and a leaf is as long as the text it holds.
Everything else about places follows from that by induction over the tree:

* `Sound.length` — a node is as long as the text under it;
* `Sound.placed` — the text under a node stands in the whole text where the node says;
* `Sound.of_mem_subtrees` — every node of a sound tree is sound.

Trees are built from lists of nodes side by side. `Fill` says of such a list that it fills a stretch
with sound nodes, and with which text; fills are joined at their ends (`Fill.append`) and put under
a composite node (`Fill.compose`), and there is no other way in which a tree grows.
-/
import OffsideMarkup.Proofs.ByteCut
import OffsideMarkup.Tree.Node

namespace OffsideMarkup

/-! ## 1. Subtrees and text -/

theorem Rose.mem_subtreesAll {α : Type} {u : Rose α} {ts : List (Rose α)} :
    u ∈ Rose.subtreesAll ts ↔ ∃ t ∈ ts, u ∈ t.subtrees := by
  induction ts with
  | nil => simp [Rose.subtreesAll]
  | cons t ts ih => simp [Rose.subtreesAll, ih]

theorem Rose.mem_subtrees_node {α : Type} {u : Rose α} {a : α} {ts : List (Rose α)} :
    u ∈ (Rose.node a ts).subtrees ↔ u = .node a ts ∨ ∃ t ∈ ts, u ∈ t.subtrees := by
  rw [Rose.subtrees, List.mem_cons, Rose.mem_subtreesAll]

theorem Rose.self_mem_subtrees {α : Type} (t : Rose α) : t ∈ t.subtrees := by
  cases t
  exact List.mem_cons_self

theorem Rose.preorderAll_eq_flatMap {α : Type} (ts : List (Rose α)) :
    Rose.preorderAll ts = ts.flatMap Rose.preorder := by
  induction ts with
  | nil => rfl
  | cons t ts ih => rw [Rose.preorderAll, ih, List.flatMap_cons]

theorem Rose.preorderAll_append {α : Type} (ts us : List (Rose α)) :
    Rose.preorderAll (ts ++ us) = Rose.preorderAll ts ++ Rose.preorderAll us := by
  simp [Rose.preorderAll_eq_flatMap]

mutual
theorem Rose.map_label_subtrees {α : Type} (t : Rose α) :
    t.subtrees.map Rose.label = t.preorder := by
  cases t with
  | node a ts => rw [Rose.subtrees, List.map_cons, Rose.preorder, Rose.map_label_subtreesAll]; rfl

theorem Rose.map_label_subtreesAll {α : Type} (ts : List (Rose α)) :
    (Rose.subtreesAll ts).map Rose.label = Rose.preorderAll ts := by
  cases ts with
  | nil => rfl
  | cons t ts =>
    rw [Rose.subtreesAll, List.map_append, Rose.map_label_subtrees t, Rose.map_label_subtreesAll ts,
      Rose.preorderAll]
end

namespace Node

theorem source_node (l : Label) (ts : List Node) :
    Node.source (.node l ts) = l.source.getD [] ++ ts.flatMap Node.source := by
  rw [Node.source, Rose.preorder, List.flatMap_cons, Rose.preorderAll_eq_flatMap,
    List.flatMap_assoc]
  rfl

/-! ## 2. Nodes side by side -/

/-- Each node starts where the one before it stops, the first one at `start`, and the last one
stops at `stop`. -/
def Tile (start stop : Location) : List Node → Prop
  | [] => start = stop
  | t :: ts => t.label.extent.start = start ∧ Tile t.label.extent.stop stop ts

theorem tile_append {a c : Location} {ts us : List Node} :
    Tile a c (ts ++ us) ↔ ∃ b, Tile a b ts ∧ Tile b c us := by
  induction ts generalizing a with
  | nil => simp [Tile]
  | cons t ts ih => simp [Tile, ih, and_assoc]

/-- Tiles stop where the last of them stops. -/
theorem Tile.stop_eq {start stop : Location} {ts : List Node} (h : Tile start stop ts) :
    (ts.getLast?.map (·.label.extent.stop)).getD start = stop := by
  induction ts generalizing start with
  | nil => exact h
  | cons t ts ih =>
    have later := ih h.2
    cases ts with
    | nil => simpa using later
    | cons u us =>
      rw [List.getLast?_cons, Option.map_some, Option.getD_some] at later
      rw [List.getLast?_cons_cons, List.getLast?_cons, Option.map_some, Option.getD_some, later]

/-! ## 3. Sound trees -/

/-- The picture a tree gives of a stretch of text is faithful. A leaf is as long as its text, and
has none if it is missing; the children of a composite node fill it. -/
inductive Sound : Node → Prop
  | leaf {l : Label} {cs : List Char} (text : l.source = some cs)
      (offset : l.extent.stop.offset = l.extent.start.offset + byteLength cs)
      (units : l.extent.stop.units = l.extent.start.units + unitLength cs)
      (missing : l.missing = true → l.extent.stop = l.extent.start) : Sound (.node l [])
  | composite {l : Label} {ts : List Node} (text : l.source = none) (missing : l.missing = false)
      (tile : Tile l.extent.start l.extent.stop ts) (parts : ∀ t ∈ ts, Sound t) :
      Sound (.node l ts)

/-- What lies between two locations is as long as a text. -/
def Spans (e : Extent) (cs : List Char) : Prop :=
  e.stop.offset = e.start.offset + byteLength cs ∧ e.stop.units = e.start.units + unitLength cs

theorem Tile.spans {start stop : Location} {ts : List Node} (h : Tile start stop ts)
    (each : ∀ t ∈ ts, Spans t.label.extent (Node.source t)) :
    Spans ⟨start, stop⟩ (ts.flatMap Node.source) := by
  induction ts generalizing start with
  | nil =>
    rw [Tile] at h
    subst h
    exact ⟨rfl, rfl⟩
  | cons t ts ih =>
    obtain ⟨rfl, later⟩ := h
    have first := each t List.mem_cons_self
    have others := ih later fun u hu => each u (List.mem_cons_of_mem t hu)
    dsimp only [Spans] at first others ⊢
    rw [List.flatMap_cons, byteLength_append, unitLength_append]
    omega

/-- A node is as long as the text under it. -/
theorem Sound.length {t : Node} (h : t.Sound) : Spans t.label.extent (Node.source t) := by
  induction h with
  | leaf text offset units missing =>
    rw [source_node, text, List.flatMap_nil, List.append_nil]
    exact ⟨offset, units⟩
  | composite text missing tile parts ih =>
    rw [source_node, text]
    exact tile.spans ih

/-- What tiles a stretch lies inside it. -/
theorem Tile.inside {start stop : Location} {ts : List Node} (h : Tile start stop ts)
    (each : ∀ t ∈ ts, t.label.extent.start.offset ≤ t.label.extent.stop.offset) :
    start.offset ≤ stop.offset
      ∧ ∀ t ∈ ts, start.offset ≤ t.label.extent.start.offset
        ∧ t.label.extent.stop.offset ≤ stop.offset := by
  induction ts generalizing start with
  | nil =>
    rw [Tile] at h
    subst h
    exact ⟨Nat.le_refl _, by simp⟩
  | cons t ts ih =>
    obtain ⟨rfl, later⟩ := h
    have first := each t List.mem_cons_self
    obtain ⟨le, inside⟩ := ih later fun u hu => each u (List.mem_cons_of_mem t hu)
    refine ⟨Nat.le_trans first le, List.forall_mem_cons.mpr ⟨⟨Nat.le_refl _, le⟩, ?_⟩⟩
    intro u hu
    exact ⟨Nat.le_trans first (inside u hu).1, (inside u hu).2⟩

theorem Sound.start_le_stop {t : Node} (h : t.Sound) :
    t.label.extent.start.offset ≤ t.label.extent.stop.offset := by
  rw [h.length.1]
  exact Nat.le_add_right ..

theorem Sound.of_mem_subtrees {t : Node} (h : t.Sound) : ∀ u ∈ t.subtrees, Sound u := by
  induction h with
  | leaf text offset units missing =>
    intro u hu
    rcases Rose.mem_subtrees_node.mp hu with rfl | ⟨v, hv, -⟩
    · exact .leaf text offset units missing
    · simp at hv
  | composite text missing tile parts ih =>
    intro u hu
    rcases Rose.mem_subtrees_node.mp hu with rfl | ⟨v, hv, hu⟩
    · exact .composite text missing tile parts
    · exact ih v hv u hu

/-- The text under a node stands in a whole text where the node says. -/
def Placed (whole : List Char) (t : Node) : Prop :=
  ∃ before after, whole = before ++ Node.source t ++ after
    ∧ t.label.extent.start.offset = byteLength before

theorem Tile.placed {whole before after : List Char} {start stop : Location} {ts : List Node}
    (h : Tile start stop ts) (sound : ∀ t ∈ ts, Sound t)
    (split : whole = before ++ ts.flatMap Node.source ++ after)
    (offset : start.offset = byteLength before) : ∀ t ∈ ts, Placed whole t := by
  induction ts generalizing before start with
  | nil => intro t ht; simp at ht
  | cons t ts ih =>
    obtain ⟨rfl, later⟩ := h
    intro u hu
    rcases List.mem_cons.mp hu with rfl | hu
    · refine ⟨before, ts.flatMap Node.source ++ after, ?_, offset⟩
      rw [split, List.flatMap_cons]
      simp only [List.append_assoc]
    · have behind : whole = (before ++ Node.source t) ++ ts.flatMap Node.source ++ after := by
        rw [split, List.flatMap_cons]
        simp only [List.append_assoc]
      have here : t.label.extent.stop.offset = byteLength (before ++ Node.source t) := by
        rw [(sound t List.mem_cons_self).length.1, offset, byteLength_append]
      exact ih later (fun v hv => sound v (List.mem_cons_of_mem t hv)) behind here u hu

theorem Sound.placed {whole : List Char} {t : Node} (h : t.Sound) (place : t.Placed whole) :
    ∀ u ∈ t.subtrees, Placed whole u := by
  induction h with
  | leaf text offset units missing =>
    intro u hu
    rcases Rose.mem_subtrees_node.mp hu with rfl | ⟨v, hv, -⟩
    · exact place
    · simp at hv
  | @composite l ts text missing tile parts ih =>
    intro u hu
    rcases Rose.mem_subtrees_node.mp hu with rfl | ⟨v, hv, hu⟩
    · exact place
    · obtain ⟨before, after, split, offset⟩ := place
      rw [source_node, text] at split
      exact ih v hv (tile.placed parts split offset v hv) u hu

/-- The bytes of a node are its text. -/
theorem Sound.slice {whole : List Char} {t : Node} (h : t.Sound) (place : t.Placed whole) :
    sliceBytes t.label.extent.start.offset t.label.extent.stop.offset whole = Node.source t := by
  obtain ⟨before, after, rfl, offset⟩ := place
  rw [h.length.1, offset, sliceBytes_append]

/-! ## 4. Building -/

/-- Sound nodes that fill the stretch between two locations with a text. -/
structure Fill (start stop : Location) (text : List Char) (ts : List Node) : Prop where
  tile : Tile start stop ts
  sound : ∀ t ∈ ts, Sound t
  source : ts.flatMap Node.source = text

namespace Fill

variable {a b c : Location} {cs ds : List Char} {ts us : List Node}

theorem nil (a : Location) : Fill a a [] [] := ⟨rfl, by simp, rfl⟩

theorem append (h : Fill a b cs ts) (h' : Fill b c ds us) : Fill a c (cs ++ ds) (ts ++ us) := by
  refine ⟨tile_append.mpr ⟨b, h.tile, h'.tile⟩, List.forall_mem_append.mpr ⟨h.sound, h'.sound⟩, ?_⟩
  rw [List.flatMap_append, h.source, h'.source]

theorem single {t : Node} (h : t.Sound) :
    Fill t.label.extent.start t.label.extent.stop (Node.source t) [t] := by
  refine ⟨⟨rfl, rfl⟩, by simpa using h, ?_⟩
  rw [List.flatMap_singleton]

end Fill

theorem extent_compose {a b : Location} {ts : List Node} (h : Tile a b ts) (kind : Kind)
    (level : Option Nat) : (compose kind a ts level).label.extent = ⟨a, b⟩ := by
  show Extent.mk a ((ts.getLast?.map (·.label.extent.stop)).getD a) = ⟨a, b⟩
  rw [h.stop_eq]

/-- Nodes that fill a stretch make up a composite node that fills it. -/
theorem Fill.compose {a b : Location} {cs : List Char} {ts : List Node} (h : Fill a b cs ts)
    (kind : Kind) (level : Option Nat) : Fill a b cs [compose kind a ts level] := by
  have sound : (Node.compose kind a ts level).Sound := by
    refine .composite rfl rfl ?_ h.sound
    show Tile a ((ts.getLast?.map (·.label.extent.stop)).getD a) ts
    rw [h.tile.stop_eq]
    exact h.tile
  have text : Node.source (Node.compose kind a ts level) = cs := by
    rw [Node.compose, source_node, h.source]
    rfl
  have fill := Fill.single sound
  rwa [extent_compose h.tile, text] at fill

/-! ## 5. Leaves -/

theorem source_leaf (l : Leaf) (role : Role) : Node.source (l.node role) = l.source :=
  (source_node _ _).trans (List.append_nil l.source)

theorem spans_leaf (l : Leaf) : Spans l.extent l.source := by
  show l.stop.offset = _ ∧ l.stop.units = _
  rw [Leaf.stop]
  split <;> exact ⟨rfl, rfl⟩

/-- A leaf is sound if it takes no place when it is missing. -/
theorem sound_leaf (l : Leaf) (missing : l.missing = true → l.stop = l.start) (role : Role) :
    (l.node role).Sound := by
  obtain ⟨offset, units⟩ := spans_leaf l
  exact .leaf rfl offset units missing

theorem fill_leaf (l : Leaf) (missing : l.missing = true → l.stop = l.start) (role : Role) :
    Fill l.start l.stop l.source [l.node role] := by
  have fill := Fill.single (sound_leaf l missing role)
  rwa [source_leaf] at fill

/-- A token fills the place where it stands. -/
theorem fill_ofToken (t : Token) (role : Role) :
    Fill t.start t.stop t.source [(Leaf.ofToken t).node role] :=
  fill_leaf (.ofToken t) (fun h => absurd h Bool.false_ne_true) role

/-- A literal fills the place of its tokens, as far as they stay on their line. -/
theorem fill_literal (here : Location) (ts : List Token) (role : Role) :
    Fill here (here.after (ts.flatMap Token.source)) (ts.flatMap Token.source)
      [(Leaf.literal here ts).node role] :=
  fill_leaf (.literal here ts) (fun h => absurd h Bool.false_ne_true) role

/-- A leaf that is not there fills nothing. -/
theorem fill_absent {kind : Kind} (h : kind ≠ .lineBreak) (here : Location) (role : Role) :
    Fill here here [] [(Leaf.absent kind here).node role] := by
  have stop := Leaf.stop_absent kind here h
  have fill := fill_leaf (.absent kind here) (fun _ => stop) role
  rwa [stop] at fill

end Node

end OffsideMarkup
