/-
OffsideMarkup.Proofs.ReaderYield — every tree that is read is a tree of the grammar.

* `Yields` — the nodes of what a reader reads are a word of a language. Readers one behind the other
  yield words one behind the other (`Yields.bind`), and then there is one lemma for each reader.
* `yields_parts` — the pieces of a template. Behind literal text comes a hole or nothing, because
  literal text goes on up to the next one.
* `declares_content` — any line, behind its indentation.
* `tree_grammar` — the tree of a text, and so what the builder stores.

That literal text has characters is not to be seen by the readers alone. It takes the lexer, which
gives no token without characters on a line that opens with a sigil (`Solid`).
-/
import OffsideMarkup.Proofs.BuilderTotal
import OffsideMarkup.Proofs.OffsideStack
import OffsideMarkup.Proofs.ReaderAccount
import OffsideMarkup.Proofs.Shift
import OffsideMarkup.Proofs.TreeGrammar

namespace OffsideMarkup

/-! ## 1. What readers yield -/

namespace Reader

open TreeGrammar

variable {α β : Type} {stop t : Token} {ts given : List Token} {l l' : Language Node}
  {p : Node → Prop}

/-- Every token has characters. -/
def Solid (given : List Token) : Prop := ∀ t ∈ given, t.source ≠ []

theorem Solid.rest (solid : Solid given) (r : Reader α) : Solid (r stop given).rest :=
  fun t ht => solid t ((r stop given).rest_suffix.mem ht)

theorem Solid.head (solid : Solid (t :: ts)) : t.source ≠ [] := solid t List.mem_cons_self

theorem Solid.tail (solid : Solid (t :: ts)) : Solid ts :=
  fun u hu => solid u (List.mem_cons_of_mem t hu)

/-- The nodes of what a reader reads are a word of a language. -/
def Yields (r : Reader α) (view : α → List Node) (l : Language Node) : Prop :=
  ∀ stop given, Solid given → view (r stop given).value ∈ l

/-- The same of a reader that finishes something: the nodes in front are not its own. -/
def YieldsBehind (front : List Node) (r : Reader α) (view : α → List Node) (l : Language Node) :
    Prop :=
  ∀ stop given, Solid given → ∃ own ∈ l, view (r stop given).value = front ++ own

variable {front : List Node} {view : α → List Node} {view' : β → List Node}

/-- One reader, then another that finishes what both read. -/
theorem Yields.bind {r : Reader α} {next : α → Reader β} (h : Yields r view l)
    (h' : ∀ a, YieldsBehind (front ++ view a) (next a) view' l') :
    YieldsBehind front (r >>= next) view' (l * l') := by
  intro stop given solid
  obtain ⟨own, word, nodes⟩ := h' (r stop given).value stop (r stop given).rest (solid.rest r)
  exact ⟨_, Language.append_mem_mul (h stop given solid) word,
    nodes.trans (List.append_assoc ..)⟩

/-- One reader, with which it is finished. -/
theorem Yields.last {r : Reader α} {f : α → β} (h : Yields r view l)
    (is : ∀ a, view' (f a) = front ++ view a) :
    YieldsBehind front (r >>= fun a => pure (f a)) view' l :=
  fun stop given solid => ⟨_, h stop given solid, is _⟩

theorem YieldsBehind.finish {r : Reader β} (h : YieldsBehind front r view' l')
    (there : front ∈ l) : Yields r view' (l * l') := by
  intro stop given solid
  obtain ⟨own, word, nodes⟩ := h stop given solid
  rw [nodes]
  exact Language.append_mem_mul there word

theorem Yields.left {r : Reader α} (h : Yields r view l) : Yields r view (l + l') :=
  fun stop given solid => .inl (h stop given solid)

theorem Yields.right {r : Reader α} (h : Yields r view l') : Yields r view (l + l') :=
  fun stop given solid => .inr (h stop given solid)

theorem yields_literal (stops : KindSet) (role : Role) :
    Yields (literal stops) (fun l => [l.node role]) (one IsLiteral) :=
  fun _ _ _ => mem_one_iff.mpr (isLiteral_node rfl role)

theorem yields_name (stops : KindSet) (role : Role) :
    Yields (name stops) (fun l => [l.node role]) (one IsLiteral) := by
  intro stop given solid
  have missed (h : ∀ t ∈ given.head?, stops.has t.kind = true) :
      [(name stops stop given).value.node role] ∈ one IsLiteral := by
    rw [name_of_stop h]
    exact mem_one_iff.mpr (isLiteral_node rfl role)
  cases given with
  | nil => exact missed (by simp)
  | cons t ts =>
    cases h : stops.has t.kind with
    | true => exact missed (by simpa using h)
    | false =>
      rw [name_of_content h]
      exact yields_literal stops role stop (t :: ts) solid

theorem yields_expect (kind : Kind) (role : Role) :
    Yields (expect kind) (fun l => [l.node role]) (one (IsExpected kind)) := by
  intro stop given _
  rcases head_cases kind given with ⟨t, ts, rfl, h⟩ | other
  · rw [expect_of_kind h]
    exact mem_one_iff.mpr (isExpected_node h role)
  · rw [expect_of_other other]
    exact mem_one_iff.mpr ⟨rfl, rfl, rfl⟩

theorem yields_behind {kind : Kind} {r : Reader α} {view : α → Node} (role : Role)
    (h : Yields r (fun a => [view a]) l) :
    Yields (behind kind r) (pairNodes (·.node role) view) (opt (one (IsToken kind) * l)) := by
  intro stop given solid
  rcases head_cases kind given with ⟨t, ts, rfl, is⟩ | other
  · rw [behind_of_kind r is]
    exact mem_opt (Language.append_mem_mul (mem_one_iff.mpr (isToken_ofToken is role))
      (h stop ts solid.tail))
  · rw [behind_of_other r other]
    exact nil_mem_opt _

theorem yields_dotted {item : Reader α} {view : α → Node} (role : Role)
    (h : Yields item (fun a => [view a]) (one p)) (stop : Token) (solid : Solid given) :
    ∀ a ∈ (dotted item stop given).value, IsToken .dot (a.1.node role) ∧ p (view a.2) := by
  induction given using dotted.induct item stop with
  | case1 => rw [dotted_of_other item (by simp)]; simp
  | case2 t ts dot first later =>
    rw [dotted_of_dot item dot, List.forall_mem_cons]
    have first := mem_one_iff.mp (h stop ts solid.tail)
    exact ⟨⟨isToken_ofToken dot role, first⟩, later (solid.tail.rest item)⟩
  | case3 t ts dot => rw [dotted_of_other item (by simpa using dot)]; simp

theorem yields_chain {item : Reader α} {view : α → Node} (role : Role)
    (h : Yields item (fun a => [view a]) (one p)) :
    Yields (chain item) (fun c => [c.node role view]) (one (IsChain p)) := by
  intro stop given solid
  have head := mem_one_iff.mp (h stop given solid)
  have later : Solid (item stop given).rest := solid.rest item
  have tail := yields_dotted role h stop later
  exact mem_one_iff.mpr (isComposite_compose (isDotted_nodes head tail) _ none)

/-! ## 2. Holes, templates and values -/

theorem yields_mustacheBehind {opening : Leaf}
    (is : IsToken .mustacheOpen (opening.node .part)) :
    Yields (mustacheBehind opening) (fun m => [m.node]) (one IsHole) := by
  intro stop given solid
  have parts : YieldsBehind [opening.node .part] (mustacheBehind opening)
      (fun m => m.node.children) _ :=
    (yields_chain .part (yields_name _ .part)).bind fun _ =>
      (yields_behind .part (yields_literal _ .part)).bind fun _ =>
      (yields_expect .mustacheClose .part).last fun _ => rfl
  have word := parts.finish (mem_one_iff.mpr is) stop given solid
  exact mem_one_iff.mpr (isComposite_compose word _ none)

/-- In front of what no literal text goes on over, a template has a hole or nothing. -/
theorem kind_head_parts {stops : KindSet}
    (h : ∀ t ∈ given.head?, inPiece stops t = false) :
    ∀ n ∈ ((parts stops stop given).value.map TemplatePart.node).head?,
      n.label.kind = .mustache := by
  cases given with
  | nil => rw [parts_of_stop (by simp)]; simp
  | cons t ts =>
    cases go : stops.has t.kind with
    | true => rw [parts_of_stop (by simpa using go)]; simp
    | false =>
      have hole : t.kind = .mustacheOpen := by
        simpa [inPiece, KindSet.insert, go] using h t rfl
      rw [parts_of_hole go hole]
      rintro n ⟨rfl⟩
      rfl

theorem yields_parts (stops : KindSet) :
    Yields (parts stops) (·.map TemplatePart.node) {w | IsText w} := by
  intro stop given solid
  induction given using parts.induct stops stop with
  | case1 => rw [parts_of_stop (by simp)]; exact IsText.nil
  | case2 t ts h => rw [parts_of_stop (by simpa using h)]; exact IsText.nil
  | case3 t ts go h hole later =>
    have opening := isToken_ofToken h .part
    have first := mem_one_iff.mp (yields_mustacheBehind opening stop ts solid.tail)
    rw [parts_of_hole (by simpa using go) h]
    exact IsText.hole first (later (solid.tail.rest (mustacheBehind (.ofToken t))))
  | case4 t ts go h inside later =>
    have rest : Solid (ts.dropWhile (inPiece stops)) :=
      fun u hu => solid.tail u ((List.dropWhile_suffix _).mem hu)
    have words := isWords_literal solid.head t.start (ts.takeWhile (inPiece stops)) .part
    have next : ∀ u ∈ (ts.dropWhile (inPiece stops)).head?, inPiece stops u = false := by
      intro u hu
      have stopped := List.head?_dropWhile_not (inPiece stops) ts
      rwa [hu] at stopped
    rw [parts_of_literal (by simpa using go) h]
    exact IsText.words words (later rest) (kind_head_parts next)

theorem yields_template (stops : KindSet) :
    Yields (template stops) (fun t => [t.node]) (one IsTemplate) :=
  fun stop given solid =>
    mem_one_iff.mpr (isComposite_compose (yields_parts stops stop given solid) _ none)

theorem yields_value : Yields value (fun v => [v.node]) (one IsValue) := by
  intro stop given solid
  by_cases h : IsLone stop given
  · obtain ⟨t, ts, rfl, opening, lone⟩ := h
    have hole := yields_mustacheBehind (isToken_ofToken opening .part) stop ts solid.tail
    rw [value_of_lone opening lone]
    exact mem_one_iff.mpr (.inl (mem_one_iff.mp hole))
  · have text := yields_template .empty stop given solid
    rw [value_of_template h]
    exact mem_one_iff.mpr (.inr (mem_one_iff.mp text))

/-! ## 3. The forms of a line -/

section

variable {sigil : Leaf}

theorem yields_tagBehind (is : IsToken .greaterThan (sigil.node .sigil)) :
    Yields (tagBehind sigil) (fun t => [t.node]) (one IsTag) := by
  intro stop given solid
  have parts : YieldsBehind [sigil.node .sigil] (tagBehind sigil) (fun t => t.node.children) _ :=
    (yields_name _ .subject).bind fun _ =>
      (yields_behind .part (yields_chain .part (yields_template _))).bind fun _ =>
      (yields_behind .part (yields_name _ .part)).last fun _ => rfl
  have word := parts.finish (mem_one_iff.mpr is) stop given solid
  exact mem_one_iff.mpr (isComposite_compose word _ none)

theorem yields_attributeBehind (is : IsToken .hashSign (sigil.node .sigil)) :
    Yields (attributeBehind sigil) (fun a => (Body.attribute a).nodes) attributeForm := by
  have parts : YieldsBehind [sigil.node .sigil] (attributeBehind sigil)
      (fun a => (Body.attribute a).nodes) _ :=
    (yields_name _ .subject).bind fun _ =>
      (yields_behind .part yields_value).last fun _ => rfl
  exact parts.finish (mem_one_iff.mpr is)

theorem yields_propertyBehind (is : IsToken .percentSign (sigil.node .sigil)) :
    Yields (propertyBehind sigil) (fun a => (Body.attribute a).nodes) propertyForm := by
  have parts : YieldsBehind [sigil.node .sigil] (propertyBehind sigil)
      (fun a => (Body.attribute a).nodes) _ :=
    (yields_name _ .subject).bind fun _ =>
      (yields_behind .trigger (yields_name _ .trigger)).bind fun _ =>
      (yields_behind .part yields_value).last fun _ => rfl
  exact parts.finish (mem_one_iff.mpr is)

theorem yields_handlerBehind (is : IsToken .atSign (sigil.node .sigil)) :
    Yields (handlerBehind sigil) (fun h => (Body.handler h).nodes) handlerForm := by
  have parts : YieldsBehind [sigil.node .sigil] (handlerBehind sigil)
      (fun h => (Body.handler h).nodes) _ :=
    (yields_name _ .subject).bind fun _ =>
      (yields_behind .modifier (yields_chain .modifier (yields_name _ .modifier))).bind fun _ =>
      (yields_expect .equals .part).bind fun _ =>
      (yields_name _ .part).bind fun _ =>
      (yields_behind .part (yields_template _)).last fun _ => by simp [Body.nodes]
  exact parts.finish (mem_one_iff.mpr is)

theorem yields_text (is : [sigil.node .sigil] ∈ l) :
    Yields (template .empty) (fun content => (Body.text sigil content).nodes)
      (l * one IsTemplate) :=
  fun stop given solid => Language.append_mem_mul is (yields_template .empty stop given solid)

theorem yields_mountingPoint (is : [sigil.node .sigil] ∈ l) :
    Yields (name .empty) (fun name => (Body.mountingPoint sigil name).nodes)
      (l * one IsLiteral) :=
  fun stop given solid => Language.append_mem_mul is (yields_name .empty .subject stop given solid)

end

/-- What could not be read is kept as words. -/
theorem isWords_unreadable (stop : Token) (solid : Solid (t :: ts)) (role : Role) :
    IsWords ((literal .empty stop (t :: ts)).value.node role) := by
  rw [literal_of_content rfl]
  exact isWords_literal solid.head t.start _ role

/-- A line that is read by a form. -/
theorem declares_form {r : Reader α} {kind : Kind} (form : α → Content)
    (h : Yields r (fun a => (form a).nodes) (declared kind)) (is : ∀ a, (form a).kind = kind)
    (stop : Token) (solid : Solid ts) :
    ((do return form (← r) : Reader Content) stop ts).value.nodes
      ∈ declared ((do return form (← r) : Reader Content) stop ts).value.kind := by
  have kind : ((do return form (← r) : Reader Content) stop ts).value.kind = kind := is _
  rw [kind]
  exact h stop ts solid

/-- A line declares what the lines of its kind declare. -/
theorem declares_content (stop : Token)
    (solid : (∀ t ∈ given.head?, t.kind ≠ .comment) → Solid given) :
    (content stop given).value.nodes ∈ declared (content stop given).value.kind := by
  cases given with
  | nil => exact nil_mem_opt _
  | cons t ts =>
    have token {k : Kind} (is : t.kind = k) (role : Role) :
        [(Leaf.ofToken t).node role] ∈ one (IsToken k) :=
      mem_one_iff.mpr (isToken_ofToken is role)
    by_cases comment : t.kind = .comment
    · simp only [content, comment]
      exact mem_opt (.inl (token comment .part))
    · have solid := solid (by simpa using comment)
      rw [content]
      dsimp only
      split
      · next is =>
        exact declares_form .element (yields_tagBehind (isToken_ofToken is _)) (fun _ => rfl)
          stop solid.tail
      · next is =>
        exact declares_form (.simple ∘ .attribute)
          (yields_attributeBehind (isToken_ofToken is _)).left (fun _ => rfl) stop solid.tail
      · next is =>
        exact declares_form (.simple ∘ .attribute)
          (yields_propertyBehind (isToken_ofToken is _)).right (fun _ => rfl) stop solid.tail
      · next is =>
        exact declares_form (.simple ∘ .handler) (yields_handlerBehind (isToken_ofToken is _))
          (fun _ => rfl) stop solid.tail
      · next is =>
        exact declares_form (.simple ∘ .text _) (yields_text (.inl (token is _)))
          (fun _ => rfl) stop solid.tail
      · next is =>
        exact declares_form (.simple ∘ .text _) (yields_text (.inr (token is _)))
          (fun _ => rfl) stop solid.tail
      · next is =>
        exact declares_form (.simple ∘ .mountingPoint _)
          (yields_mountingPoint (.inl (token is _))) (fun _ => rfl) stop solid.tail
      · next is =>
        exact declares_form (.simple ∘ .mountingPoint _)
          (yields_mountingPoint (.inr (token is _))) (fun _ => rfl) stop solid.tail
      · next is => exact absurd is comment
      · exact mem_opt (.inr (mem_one_iff.mpr (isWords_unreadable stop solid .part)))

end Reader

/-! ## 4. Lines and files -/

namespace TreeGrammar

/-- What stands on a line by itself has the form of its kind. -/
theorem nodes_mem_ofLine {p e : Scanner} {tl : TokenLine} (line : p.ReadsLine tl e) :
    (Row.ofTokenLine tl).nodes ∈ ofLine (Row.ofTokenLine tl).kind := by
  have kind : (Row.ofTokenLine tl).kind = (Reader.content tl.stop tl.body).value.kind := by
    rw [Row.ofTokenLine]
    cases (Reader.content tl.stop tl.body).value <;> rfl
  have indent : (tl.indent.map Leaf.ofToken).toList.map (·.node .part)
      ∈ opt (one (IsToken .indentation)) := by
    rw [line.indent, Scanner.indent?]
    split
    · next is => exact mem_opt (mem_one_iff.mpr (isToken_ofToken is .part))
    · exact nil_mem_opt _
  have ending : [(Leaf.ofToken tl.stop).node .part]
      ∈ one (IsToken .lineBreak) + one (IsToken .endOfText) := by
    obtain ⟨-, ⟨is, -⟩ | ⟨is, -⟩⟩ := line.stop_cases
    · exact .inl (mem_one_iff.mpr (isToken_ofToken is .part))
    · exact .inr (mem_one_iff.mpr (isToken_ofToken is .part))
  have own := Reader.declares_content tl.stop line.solid_body
  rw [nodes_ofTokenLine, kind, List.append_assoc]
  exact Language.append_mem_mul indent (Language.append_mem_mul own ending)

/-- Lines with rows of the grammar are lines of the grammar, also where they are nested. -/
theorem isLine_nodesOf (ls : List Line)
    (rows : ∀ l ∈ Line.withinAll ls, l.row.nodes ∈ ofLine l.row.kind) :
    Line.nodesOf ls ∈ many IsLine := by
  match ls with
  | [] => exact List.forall_mem_nil _
  | .simple f b :: ls =>
    rw [Line.withinAll, Line.within] at rows
    have own := rows (.simple f b) List.mem_cons_self
    have later := isLine_nodesOf ls fun l hl => rows l (List.mem_append_right _ hl)
    have line : IsLine (Line.simple f b).node :=
      .line (by cases b <;> rfl) rfl (List.append_nil _).symm own (by simp) (by simp)
    exact List.forall_mem_cons.mpr ⟨line, later⟩
  | .element f t inner :: ls =>
    rw [Line.withinAll, Line.within] at rows
    have own := rows (.element f t inner) List.mem_cons_self
    have under := isLine_nodesOf inner fun l hl =>
      rows l (List.mem_append_left _ (List.mem_cons_of_mem _ hl))
    have later := isLine_nodesOf ls fun l hl => rows l (List.mem_append_right _ hl)
    have line : IsLine (Line.element f t inner).node := .line rfl rfl rfl own (fun _ => rfl) under
    exact List.forall_mem_cons.mpr ⟨line, later⟩
termination_by sizeOf ls

end TreeGrammar

/-- The tree of a text is a tree of the grammar. -/
theorem isFile_root (variant : Variant) (text : List Char) :
    TreeGrammar.IsFile (SourceFile.ofText variant text).root := by
  have lines : ∀ l ∈ Line.withinAll (SourceFile.ofText variant text).lines,
      l.row.nodes ∈ TreeGrammar.ofLine l.row.kind := by
    intro l hl
    obtain ⟨p, e, tl, line, row⟩ := exists_readsLine_of_mem hl
    rw [row]
    exact TreeGrammar.nodes_mem_ofLine line
  have ending : TreeGrammar.IsToken .endOfText
      ((SourceFile.ofText variant text).endOfFile.node .part) := ⟨⟨rfl, rfl, rfl⟩, rfl⟩
  exact TreeGrammar.isComposite_compose (Language.append_mem_mul
    (TreeGrammar.isLine_nodesOf _ lines) (TreeGrammar.mem_one_iff.mpr ending)) .origin none

/-- The tree of a text is a tree of the grammar, so that each of its nodes has the form of its kind;
and the builder stores that very tree. -/
theorem tree_grammar (variant : Variant) (text : List Char) :
    TreeGrammar.IsFile (SourceFile.ofText variant text).root
      ∧ (∀ n ∈ (SourceFile.ofText variant text).root.subtrees, TreeGrammar.HasForm n)
      ∧ (byteLength text < wordBound → (SourceFile.ofText variant text).root.size ≤ wordBound →
        ∃ b, build text = Part.some (.ok (Node.rootAt 0 (SourceFile.ofText variant text).root, b))
          ∧ b.nodes.values = (SourceFile.ofText variant text).root.entries 0 none) := by
  have file := isFile_root variant text
  refine ⟨file, TreeGrammar.formed_file file, fun short few => ?_⟩
  obtain ⟨b, built, nodes, -⟩ := exists_build variant text short few
  exact ⟨b, built, nodes⟩

end OffsideMarkup
