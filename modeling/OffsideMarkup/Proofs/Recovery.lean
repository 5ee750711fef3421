/-
OffsideMarkup.Proofs.Recovery — what is missing is reported, once.

A reader that does not find what it needs does two things that nothing holds together: it puts a
missing node into the tree, and it reports. `Told` says of findings and nodes that they answer to
each other, one to one and in order. This is an account (`account_told`), so it holds of whatever a
reader gives, also of one that gives up a try and takes back both. Of tokens only two are ever
looked for in vain, the equals sign of a handler and the closing braces of a hole; every other token
is taken because it has been seen.

A line that opens with a token that opens no line is reported in another way, and the tree shows it
in another way: what stands on such a line is a literal in the place of a comment
(`Node.isUnreadable`).

The findings of a file are those of its lines, and so are its nodes, so that both accounts carry
over to files (`recovery_is_reported`), and from there to what the builder stores and reports.
-/
import Mathlib.Data.List.Forall2
import OffsideMarkup.Proofs.BuilderTotal
import OffsideMarkup.Proofs.Findings
import OffsideMarkup.Proofs.ReaderAccount
import OffsideMarkup.Proofs.Shift

namespace OffsideMarkup

/-! ## 1. What is missing in a tree -/

/-- The missing nodes of a tree in document order, each with the kind of the node it is part of. -/
def Node.absences (n : Node) : List (Option Kind × Label) :=
  ((n.withAncestors []).filter (·.2.missing)).map fun (above, l) => (above.head?.map (·.kind), l)

/-- The missing nodes among some that stand under others. -/
def absencesUnder (above : List Label) (ts : List Node) : List (Option Kind × Label) :=
  ((Rose.withAncestorsAll above ts).filter (·.2.missing)).map fun (above, l) =>
    (above.head?.map (·.kind), l)

theorem absencesUnder_append (above : List Label) (ts us : List Node) :
    absencesUnder above (ts ++ us) = absencesUnder above ts ++ absencesUnder above us := by
  rw [absencesUnder, Rose.withAncestorsAll_append, List.filter_append, List.map_append]
  rfl

theorem absencesUnder_compose (above : List Label) (kind : Kind) (start : Location)
    (ts : List Node) (level : Option Nat) :
    absencesUnder above [Node.compose kind start ts level]
      = absencesUnder ((Node.compose kind start ts level).label :: above) ts := by
  rw [absencesUnder, Rose.withAncestorsAll, Rose.withAncestorsAll, List.append_nil, Node.compose,
    Rose.withAncestors, List.filter_cons_of_neg (by simp)]
  rfl

theorem absencesUnder_leaf (above : List Label) (l : Leaf) (role : Role) :
    absencesUnder above [l.node role]
      = if l.missing then [(above.head?.map (·.kind), (l.node role).label)] else [] := by
  rw [absencesUnder, Rose.withAncestorsAll, Rose.withAncestorsAll, List.append_nil, Leaf.node,
    Rose.withAncestors, Rose.withAncestorsAll]
  cases l.missing <;> rfl

/-- The findings tell of what is missing among nodes with this kind of parent, each of one node. -/
def Told (parent : Option Kind) (ds : List Diagnostic) (ts : List Node) : Prop :=
  ∀ above : List Label, above.head?.map (·.kind) = parent →
    List.Forall₂ (fun d x => d.TellsOf x.1 x.2) ds (absencesUnder above ts)

theorem account_told : Reader.Account Told where
  nil _ := fun _ _ => .nil
  append h h' := by
    intro above place
    rw [absencesUnder_append]
    exact List.rel_append (h above place) (h' above place)
  compose h _ _ _ := by
    intro above _
    rw [absencesUnder_compose]
    exact h _ rfl
  present there _ _ _ := by
    intro above _
    rw [absencesUnder_leaf, there]
    exact .nil
  absent missing _ := by
    intro parent role d tells above place
    rw [absencesUnder_leaf, missing, place]
    exact .cons tells .nil

/-- There is nothing to tell of a leaf that is there, whatever its kind. -/
theorem told_present {l : Leaf} (there : l.missing = false) (parent : Option Kind) (role : Role) :
    Told parent [] [l.node role] := by
  intro above _
  rw [absencesUnder_leaf, there]
  exact .nil

/-- What tells of a missing node is a finding of one of two codes. -/
theorem Told.codes {parent : Option Kind} {ds : List Diagnostic} {ts : List Node}
    (h : Told parent ds ts) : ∀ d ∈ ds, d.code = 1 ∨ d.code = 5 := by
  obtain ⟨above, place⟩ : ∃ above : List Label, above.head?.map (·.kind) = parent := by
    cases parent with
    | none => exact ⟨[], rfl⟩
    | some kind => exact ⟨[⟨.part, kind, ⟨.origin, .origin⟩, false, none, none⟩], rfl⟩
  have both := (h above place).imp fun d x tells => (⟨tells.2.imp And.left And.left, tells⟩ :
    (d.code = 1 ∨ d.code = 5) ∧ d.TellsOf x.1 x.2)
  exact ((List.forall₂_and_left _ _).mp both).1

/-! ## 2. Lines -/

/-- The finding says that something is missing. -/
def Diagnostic.isOfMissing (d : Diagnostic) : Bool := d.code == 1 || d.code == 5

theorem told_row (l : TokenLine) :
    Told (some (Row.ofTokenLine l).kind)
      ((Row.ofTokenLine l).frame.findings.filter Diagnostic.isOfMissing)
      (Row.ofTokenLine l).nodes := by
  have kind : (Row.ofTokenLine l).kind = (Reader.content l.stop l.body).value.kind := by
    rw [Row.ofTokenLine]
    cases (Reader.content l.stop l.body).value <;> rfl
  have accounted := Reader.accounted_content account_told l.stop l.body
  rw [kind, nodes_ofTokenLine, frame_ofTokenLine]
  dsimp only
  generalize (Reader.content l.stop l.body).findings = ds at accounted
  generalize (Reader.content l.stop l.body).value = c at accounted
  have own : Told (some c.kind) (ds.filter Diagnostic.isOfMissing) c.nodes := by
    cases accounted with
    | rejected code start kind there =>
      rw [List.filter_cons_of_neg]
      · exact told_present there _ .part
      · simp [Diagnostic.isOfMissing, code]
    | related readable told =>
      rw [List.filter_eq_self.mpr]
      · exact told
      · intro d hd
        simpa [Diagnostic.isOfMissing] using told.codes d hd
  have indent : Told (some c.kind) []
      ((l.indent.map Leaf.ofToken).toList.map (·.node .part)) := by
    cases l.indent with
    | none => exact account_told.nil _
    | some t => exact told_present rfl _ .part
  have ending : Told (some c.kind) [] [(Leaf.ofToken l.stop).node .part] := told_present rfl _ .part
  have whole := account_told.append (account_told.append indent own) ending
  rwa [List.nil_append, List.append_nil] at whole

/-- The findings of lines tell of what is missing in them, also where they are nested. -/
theorem told_nodesOf (parent : Option Kind) (ls : List Line)
    (rows : ∀ l ∈ Line.withinAll ls,
      Told (some l.row.kind) (l.row.frame.findings.filter Diagnostic.isOfMissing) l.row.nodes) :
    Told parent
      (((Line.withinAll ls).map Line.row).flatMap
        (·.frame.findings.filter Diagnostic.isOfMissing))
      (Line.nodesOf ls) := by
  match ls with
  | [] => exact account_told.nil parent
  | .simple f b :: ls =>
    rw [Line.withinAll, Line.within] at rows ⊢
    have own := rows (.simple f b) List.mem_cons_self
    have later := told_nodesOf parent ls fun l hl => rows l (List.mem_append_right _ hl)
    exact account_told.append (account_told.compose own parent f.start (some f.level)) later
  | .element f t inner :: ls =>
    rw [Line.withinAll, Line.within] at rows ⊢
    have own := rows (.element f t inner) List.mem_cons_self
    have under := told_nodesOf (some .element) inner fun l hl =>
      rows l (List.mem_append_left _ (List.mem_cons_of_mem _ hl))
    have later := told_nodesOf parent ls fun l hl => rows l (List.mem_append_right _ hl)
    rw [List.map_append, List.map_cons, List.flatMap_append, List.flatMap_cons]
    have whole := account_told.append own under
    exact account_told.append (account_told.compose whole parent f.start (some f.level)) later
termination_by sizeOf ls

/-! ## 3. Lines that could not be read -/

/-- The literals that a node is made of. -/
def Node.literals (n : Node) : List Node := n.children.filter (·.label.kind == .literal)

/-- A line with a literal in the place of a comment. -/
def Node.isUnreadable (n : Node) : Bool :=
  n.label.isLine && n.label.kind == .commentLine && !n.literals.isEmpty

/-- A finding rejects a line: it starts where the literal starts that the line has for a comment. -/
def Diagnostic.Rejects (d : Diagnostic) (n : Node) : Prop :=
  ∃ words : Node, n.literals = [words] ∧ d.span.start = words.label.extent.span.start

/-- The ends of a line are no literals. -/
theorem filter_literal_around {p e : Scanner} {l : TokenLine} (line : p.ReadsLine l e)
    (ts : List Node) :
    ((Row.ofTokenLine l).frame.around ts).filter (·.label.kind == .literal)
      = ts.filter (·.label.kind == .literal) := by
  have indent : ∀ t ∈ l.indent, t.kind ≠ .literal := by
    rw [line.indent, Scanner.indent?]
    split
    · next is => simp [is]
    · simp
  have stop : l.stop.kind ≠ .literal := by
    obtain ⟨-, ⟨is, -⟩ | ⟨is, -⟩⟩ := line.stop_cases <;> simp [is]
  rw [frame_ofTokenLine, Frame.around, List.filter_append, List.filter_append]
  cases found : l.indent with
  | none => simp [Leaf.node, Leaf.ofToken, Rose.label, stop]
  | some t => simp [Leaf.node, Leaf.ofToken, Rose.label, stop, indent t found]

/-- The literals of a comment line are those of its comment. -/
theorem literals_of_comment {p e : Scanner} {tl : TokenLine} (line : p.ReadsLine tl e) {f : Frame}
    {words : Option Leaf} (row : Row.simple f (.comment words) = Row.ofTokenLine tl) :
    (Line.simple f (.comment words)).node.literals
      = (words.toList.filter (·.kind == .literal)).map (·.node .part) := by
  have around := filter_literal_around line (Body.comment words).nodes
  rw [← row, Body.nodes, List.filter_map] at around
  exact around

/-- A line with words that could not be read for its comment has these for its one literal. -/
theorem literals_of_rejected {p e : Scanner} {tl : TokenLine} (line : p.ReadsLine tl e) {f : Frame}
    {words : Leaf} (row : Row.simple f (.comment (some words)) = Row.ofTokenLine tl)
    (kind : words.kind = .literal) :
    (Line.simple f (.comment (some words))).node.literals = [words.node .part]
      ∧ (Line.simple f (.comment (some words))).node.isUnreadable = true := by
  have own := literals_of_comment line row
  rw [Option.toList_some, List.filter_cons_of_pos (by simp [kind]), List.filter_nil,
    List.map_singleton] at own
  refine ⟨own, ?_⟩
  rw [Node.isUnreadable, own]
  rfl

/-- A line that could be read has no literal in the place of a comment. -/
theorem isUnreadable_of_readable {p e : Scanner} {tl : TokenLine} (line : p.ReadsLine tl e)
    {l : Line} (row : l.row = Row.ofTokenLine tl)
    (readable : (Reader.content tl.stop tl.body).value.rejected = none) :
    l.node.isUnreadable = false := by
  cases l with
  | element f t inner => rfl
  | simple f b =>
    cases b with
    | comment words =>
      have comment : (Reader.content tl.stop tl.body).value = .simple (.comment words) := by
        rw [Row.ofTokenLine] at row
        generalize (Reader.content tl.stop tl.body).value = c at row ⊢
        cases c <;> simp_all [Line.row]
      have empty : words.toList.filter (·.kind == .literal) = [] := by
        rw [comment] at readable
        cases words with
        | none => rfl
        | some w => simpa [Reader.Content.rejected] using readable
      rw [Node.isUnreadable, literals_of_comment line row, empty]
      simp
    | _ => rfl

/-- A line that could not be read has one finding that rejects it, and no other line has one. -/
theorem rejects_line {p e : Scanner} {tl : TokenLine} (line : p.ReadsLine tl e) {l : Line}
    (row : l.row = Row.ofTokenLine tl) :
    List.Forall₂ Diagnostic.Rejects (l.row.frame.findings.filter (·.code == 2))
      ([l.node].filter Node.isUnreadable) := by
  have findings : l.row.frame.findings = (Reader.content tl.stop tl.body).findings := by
    rw [row, frame_ofTokenLine]
  have read := isUnreadable_of_readable line row
  have literals : ∀ f words, words.kind = .literal → l = .simple f (.comment (some words)) →
      l.node.literals = [words.node .part] ∧ l.node.isUnreadable = true := by
    rintro f words kind rfl
    exact literals_of_rejected line row kind
  have accounted := Reader.accounted_content account_told tl.stop tl.body
  rw [Row.ofTokenLine] at row
  rw [findings]
  generalize (Reader.content tl.stop tl.body).findings = ds at accounted row
  generalize (Reader.content tl.stop tl.body).value = c at accounted row read
  cases accounted with
  | @rejected d words code start kind there =>
    obtain ⟨f, here⟩ : ∃ f, l = .simple f (.comment (some words)) := by
      cases l <;> simp_all [Line.row]
    obtain ⟨own, unreadable⟩ := literals f words kind here
    rw [List.filter_cons_of_pos unreadable, List.filter_cons_of_pos (by simp [code])]
    exact .cons ⟨_, own, start⟩ .nil
  | related readable told =>
    have clean : ds.filter (·.code == 2) = [] := by
      rw [List.filter_eq_nil_iff]
      intro d hd
      rcases told.codes d hd with code | code <;> simp [code]
    rw [clean, List.filter_cons_of_neg (by simp [read readable])]
    exact .nil

/-- The same of many lines. -/
theorem rejects_lines (lines : List Line)
    (rows : ∀ l ∈ lines, List.Forall₂ Diagnostic.Rejects
      (l.row.frame.findings.filter (·.code == 2)) ([l.node].filter Node.isUnreadable)) :
    List.Forall₂ Diagnostic.Rejects
      ((lines.map Line.row).flatMap (·.frame.findings.filter (·.code == 2)))
      ((lines.map Line.node).filter Node.isUnreadable) := by
  induction lines with
  | nil => exact .nil
  | cons l lines ih =>
    have own := rows l List.mem_cons_self
    have later := ih fun m hm => rows m (List.mem_cons_of_mem l hm)
    rw [List.map_cons, List.map_cons, List.flatMap_cons, ← List.singleton_append,
      List.filter_append]
    exact List.rel_append own later

/-! ## 4. Files -/

/-- What is missing in a file is told of, each node once and in document order, each line that could
not be read is rejected once, and nothing else is told of or rejected. The builder, which takes back
a hole by cutting its stores, ends with the same nodes and the same findings. -/
theorem recovery_is_reported (variant : Variant) (text : List Char) :
    List.Forall₂ (fun d x => Diagnostic.TellsOf d x.1 x.2)
        ((SourceFile.ofText variant text).diagnostics.filter fun d => d.code == 1 || d.code == 5)
        (SourceFile.ofText variant text).root.absences
      ∧ List.Forall₂ Diagnostic.Rejects
        ((SourceFile.ofText variant text).diagnostics.filter (·.code == 2))
        ((SourceFile.ofText variant text).root.subtrees.filter Node.isUnreadable)
      ∧ (byteLength text < wordBound → (SourceFile.ofText variant text).root.size ≤ wordBound →
        ∃ b, build text = Part.some (.ok (Node.rootAt 0 (SourceFile.ofText variant text).root, b))
          ∧ b.nodes.values = (SourceFile.ofText variant text).root.entries 0 none
          ∧ b.findings = (SourceFile.ofText variant text).diagnostics) := by
  have rows := map_row_withinAll_lines variant text
  have lines : ∀ l ∈ Line.withinAll (SourceFile.ofText variant text).lines,
      ∃ (p e : Scanner) (tl : TokenLine), p.ReadsLine tl e ∧ l.row = Row.ofTokenLine tl := by
    intro l hl
    have row : l.row ∈ Row.ofText text := rows ▸ List.mem_map_of_mem hl
    obtain ⟨tl, htl, e⟩ := List.mem_map.mp row
    obtain ⟨f, reads, -⟩ := Scanner.reads_ofText text
    obtain ⟨k, at_k⟩ := List.mem_iff_getElem?.mp htl
    obtain ⟨q, e', -, line, -⟩ := reads.line_at at_k
    exact ⟨q, e', tl, line, e.symm⟩
  refine ⟨?_, ?_, fun short few => ?_⟩
  · have missing : (SourceFile.ofText variant text).diagnostics.filter Diagnostic.isOfMissing
        = (Row.ofText text).flatMap (·.frame.findings.filter Diagnostic.isOfMissing) :=
      filter_diagnostics (p := fun m => m.code == 1 || m.code == 5) rfl variant text
    have told := told_nodesOf (some .file) (SourceFile.ofText variant text).lines fun l hl => by
      obtain ⟨-, -, tl, -, row⟩ := lines l hl
      rw [row]
      exact told_row tl
    have ending : Told (some .file) []
      [(SourceFile.ofText variant text).endOfFile.node .part] :=
      told_present rfl _ .part
    have whole : Told none _ [(SourceFile.ofText variant text).root] :=
      account_told.compose (account_told.append told ending) none .origin none
    rw [rows, List.append_nil, ← missing] at whole
    have here := whole [] rfl
    rw [absencesUnder, Rose.withAncestorsAll, Rose.withAncestorsAll, List.append_nil] at here
    exact here
  · have rejected : (SourceFile.ofText variant text).diagnostics.filter (·.code == 2)
        = (Row.ofText text).flatMap (·.frame.findings.filter (·.code == 2)) :=
      filter_diagnostics (p := fun m => m.code == 2) rfl variant text
    have unreadable : (SourceFile.ofText variant text).root.subtrees.filter Node.isUnreadable
        = ((Line.withinAll (SourceFile.ofText variant text).lines).map Line.node).filter
          Node.isUnreadable := by
      rw [← filter_isLine_root, List.filter_filter]
      refine List.filter_congr fun n _ => ?_
      rw [Node.isUnreadable]
      cases n.label.isLine <;> simp
    rw [rejected, unreadable, ← rows]
    refine rejects_lines _ fun l hl => ?_
    obtain ⟨p, e, tl, line, row⟩ := lines l hl
    exact rejects_line line row
  · obtain ⟨b, built, nodes, findings⟩ := exists_build variant text short few
    exact ⟨b, built, nodes, findings⟩

end OffsideMarkup
