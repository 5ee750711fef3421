/-
OffsideMarkup.Proofs.BuilderParts — the builder inside a line does what the readers do.

For each rule of the grammar for parts of lines one lemma says that the machine, standing in front
of the tokens that a reader is given, builds the nodes of the reader's answer and comes to stand in
front of the tokens that the reader has left (`Follows`). What the readers owe to their types the
machine owes to the text:

* a list or a chain gets on, because the token it goes on for has characters (`offset_ne`);
* a node does not stop before it starts, because its parts fill its place (`stores_covering`);
* what was tried and came to nothing leaves no trace, because storage only grew behind what was
  there (`builds_attempt_none`).

The last two sections put the parts together to tags and to lines without a block. That a line is
read to its end is known of the readers, so the machine finds the end of the line where it looks for
it (`finds_closeLine`).
-/
import OffsideMarkup.Proofs.BuilderRun

namespace OffsideMarkup

namespace Build

variable {b b' : Builder} {e : Scanner} {t : Token} {ts given : List Token}

/-! ## 1. Rules and readers -/

/-- The rule builds the node of the reader's answer and stops where the reader stops. -/
def Follows {α : Type} (rule : Build Nat) (r : Reader α) (view : α → Node) : Prop :=
  ∀ b e given, Stands b e given →
    ∃ b', Stores rule b (Node.rootAt b.nodes.size (view (r e.token given).value)) b'
      ∧ Stands b' e (r e.token given).rest
      ∧ Grown b b' [view (r e.token given).value] (r e.token given).findings

/-- The same for a rule that gives several nodes. -/
def FollowsAll {α : Type} (rule : Build (List Nat)) (r : Reader α) (view : α → List Node) : Prop :=
  ∀ b e given, Stands b e given →
    ∃ b', Stores rule b (Node.roots b.nodes.size (view (r e.token given).value)) b'
      ∧ Stands b' e (r e.token given).rest
      ∧ Grown b b' (view (r e.token given).value) (r e.token given).findings

theorem not_isAt (st : Stands b e given) {kind : Kind} (inner : kind.endsLine = false)
    (other : ∀ t ∈ given.head?, t.kind ≠ kind) : (b.scanner.token.kind == kind) = false := by
  rw [beq_eq_false_iff_ne]
  intro same
  cases given with
  | nil =>
    have ends := st.isEmpty
    rw [same, inner] at ends
    exact absurd ends (by decide)
  | cons t ts => exact other t rfl (by rw [← same, st.token]; rfl)

theorem isAt_head (st : Stands b e (t :: ts)) {kind : Kind} (h : t.kind = kind) :
    (b.scanner.token.kind == kind) = true := by
  rw [st.token, beq_iff_eq]
  exact h

/-- The first token of those in front as a leaf. -/
theorem stores_head (st : Stands b e (t :: ts)) (role : Role) :
    ∃ b', Stores token b (Node.rootAt b.nodes.size ((Leaf.ofToken t).node role)) b'
      ∧ Stands b' e ts ∧ Grown b b' [(Leaf.ofToken t).node role] [] := by
  obtain ⟨b', built, same, grown⟩ := stores_token st.within role
  rw [st.token] at built grown
  exact ⟨b', built, st.tail same, grown⟩

theorem stores_eat (st : Stands b e (t :: ts)) {kind : Kind} (h : t.kind = kind) (role : Role) :
    ∃ b', Stores (eat kind) b (some (Node.rootAt b.nodes.size ((Leaf.ofToken t).node role))) b'
      ∧ Stands b' e ts ∧ Grown b b' [(Leaf.ofToken t).node role] [] := by
  obtain ⟨b', built, rest⟩ := stores_head st role
  exact ⟨b', stores_eat_some (isAt_head st h) built, rest⟩

theorem stores_expect (st : Stands b e (t :: ts)) {kind : Kind} (h : t.kind = kind) (role : Role) :
    ∃ b', Stores (expect kind) b (Node.rootAt b.nodes.size ((Leaf.ofToken t).node role)) b'
      ∧ Stands b' e ts ∧ Grown b b' [(Leaf.ofToken t).node role] [] := by
  obtain ⟨b', built, rest⟩ := stores_head st role
  exact ⟨b', stores_expect_of (isAt_head st h) built, rest⟩

theorem follows_expect (kind : Kind) (inner : kind.endsLine = false) (role : Role) :
    Follows (expect kind) (Reader.expect kind) (·.node role) := by
  intro b e given st
  rcases Reader.head_cases kind given with ⟨t, ts, rfl, h⟩ | other
  · rw [Reader.expect_of_kind h]
    exact stores_expect st h role
  · have plain := (Kind.ne_of_endsLine_eq_false inner).1
    have reported := Grown.reported b [.ofExtent .tokenExpected [kind.display]
      (given.headD e.token).extent]
    obtain ⟨b', built, same, grown⟩ := stores_missing plain role
      { b with findings := b.findings ++ [.ofExtent .tokenExpected [kind.display]
        (given.headD e.token).extent] }
    have report := builds_report .tokenExpected [kind.display] b
    rw [st.token] at report
    rw [st.start] at built grown
    rw [Reader.expect_of_other other]
    refine ⟨b', (builds_isAt kind b).bind_stores rfl ?_, st.of_scanner same, reported.trans grown⟩
    rw [not_isAt st inner other]
    exact report.bind_stores rfl built

/-! ## 2. Literals and names -/

theorem lineEnds_has (k : Kind) : lineEnds.has k = k.endsLine := by
  cases k <;> rfl

/-- The machine stops where the reader stops: at a stop, or at the end of the line. -/
theorem isAtAny_stops (st : Stands b e given) (stops : KindSet) :
    (stops.union lineEnds).has b.scanner.token.kind
      = given.head?.all fun t => stops.has t.kind := by
  show (stops.has b.scanner.token.kind || lineEnds.has b.scanner.token.kind) = _
  rw [lineEnds_has, st.isEmpty]
  cases given with
  | nil => exact Bool.or_true _
  | cons t ts => rw [st.token]; exact Bool.or_false _

theorem builds_skipTo (stops : KindSet) (st : Stands b e given) :
    ∃ b', Builds (skipTo (stops.union lineEnds)) b () b'
      ∧ Stands b' e (given.dropWhile fun t => !stops.has t.kind) ∧ Grown b b' [] [] := by
  induction given generalizing b with
  | nil =>
    have stop := isAtAny_stops st stops
    rw [skipTo_eq]
    refine ⟨b, (builds_isAtAny _ b).bind ?_, st, Grown.refl b⟩
    rw [stop]
    exact builds_pure () b
  | cons t ts ih =>
    have stop := isAtAny_stops st stops
    rw [skipTo_eq]
    cases h : stops.has t.kind with
    | true =>
      rw [List.dropWhile_cons_of_neg (by simp [h])]
      refine ⟨b, (builds_isAtAny _ b).bind ?_, st, Grown.refl b⟩
      rw [stop]
      simp only [List.head?_cons, Option.all_some, h]
      exact builds_pure () b
    | false =>
      have next : Stands { b with scanner := b.scanner.scan } e ts := st.tail rfl
      obtain ⟨b', built, st', grown⟩ := ih next
      rw [List.dropWhile_cons_of_pos (by simp [h])]
      refine ⟨b', (builds_isAtAny _ b).bind ?_, st', (Grown.moved b _).trans grown⟩
      rw [stop]
      simp only [List.head?_cons, Option.all_some, h]
      exact (builds_bump st.within.scan.fits).bind built

/-- What was skipped becomes one literal. -/
theorem follows_string (stops : KindSet) (role : Role) :
    Follows (stringUntil stops) (Reader.literal stops) (·.node role) := by
  intro b e given st
  obtain ⟨b', skipped, st', grown⟩ := builds_skipTo stops st
  have parts : given.takeWhile (fun t => !stops.has t.kind)
      ++ given.dropWhile (fun t => !stops.has t.kind) = given := List.takeWhile_append_dropWhile
  have stop := InLine.nextStart_append (parts.symm ▸ st.inLine)
  rw [parts, ← st'.start] at stop
  have sound := Node.sound_leaf (.literal (nextStart e.token given)
    (given.takeWhile fun t => !stops.has t.kind)) (fun h => absurd h Bool.false_ne_true) role
  obtain ⟨b'', finished, same, grown'⟩ := stores_finish grown sound stop.symm
  refine ⟨b'', (builds_here b).bind_stores rfl (skipped.bind_stores grown.nodes_eq ?_),
    st'.of_scanner same, grown'⟩
  rw [st.start]
  exact finished

theorem follows_name (stops : KindSet) (role : Role) :
    Follows (nameUntil stops) (Reader.name stops) (·.node role) := by
  intro b e given st
  have stop := isAtAny_stops st stops
  cases h : given.head?.all fun t => stops.has t.kind with
  | true =>
    have reported := Grown.reported b [.ofExtent .nonEmptyStringExpected []
      (given.headD e.token).extent]
    obtain ⟨b', built, same, grown⟩ := @stores_missing .literal (by decide) role
      { b with findings := b.findings ++ [.ofExtent .nonEmptyStringExpected []
        (given.headD e.token).extent] }
    have report := builds_report .nonEmptyStringExpected [] b
    rw [st.token] at report
    rw [st.start] at built grown
    rw [Reader.name_of_stop fun t ht => by rw [Option.mem_def.mp ht] at h; exact h]
    refine ⟨b', (builds_isAtAny _ b).bind_stores rfl ?_, st.of_scanner same, reported.trans grown⟩
    rw [stop, h]
    exact report.bind_stores rfl built
  | false =>
    cases given with
    | nil => exact absurd h (by simp)
    | cons t ts =>
      obtain ⟨b', built, rest⟩ := follows_string stops role b e (t :: ts) st
      rw [Reader.name_of_content h]
      refine ⟨b', (builds_isAtAny _ b).bind_stores rfl ?_, rest⟩
      rw [stop, h]
      exact built

/-! ## 3. Optional parts and chains -/

variable {α : Type} {rule item : Build Nat} {r : Reader α} {view : α → Node}

theorem follows_behind (kind : Kind) (inner : kind.endsLine = false) (role : Role)
    (h : Follows rule r view) :
    FollowsAll (behind kind rule) (Reader.behind kind r) (pairNodes (·.node role) view) := by
  intro b e given st
  rcases Reader.head_cases kind given with ⟨t, ts, rfl, is⟩ | other
  · obtain ⟨b₁, eaten, st₁, grown₁⟩ := stores_eat st is role
    obtain ⟨b₂, built, st₂, grown₂⟩ := h b₁ e ts st₁
    rw [Reader.behind_of_kind r is]
    have ids := grown₁.roots [view (r e.token ts).value]
    refine ⟨b₂, ?_, st₂, grown₁.trans grown₂⟩
    show Stores _ b (Node.roots b.nodes.size ([_] ++ [_])) b₂
    rw [ids]
    exact eaten.bind (built.bind (stores_pure _ b₂))
  · rw [Reader.behind_of_other r other]
    have left := builds_eat_none (not_isAt st inner other)
    exact ⟨b, left.bind_stores rfl (stores_pure [] b), st, Grown.refl b⟩

/-- Behind a token that was taken the machine stands further on. -/
theorem offset_ne (st : Stands b e (t :: ts)) {rest : List Token} (st' : Stands b' e rest)
    (suffix : rest <:+ ts) : b'.scanner.token.start.offset ≠ b.scanner.token.start.offset := by
  obtain ⟨front, rfl⟩ := suffix
  have line := st.inLine
  have split : t :: (front ++ rest) = (t :: front) ++ rest := rfl
  have stop := InLine.nextStart_append (split ▸ line)
  rw [← split] at stop
  have some_byte : 0 < byteLength t.source := by
    cases source : t.source with
    | nil => exact absurd source (st.solid t List.mem_cons_self)
    | cons c cs =>
      have := c.utf8Size_pos
      rw [byteLength_cons]
      omega
  rw [st'.start, st.start, ← stop]
  simp only [Location.after, List.flatMap_cons, byteLength_append]
  omega

theorem follows_chainTail (role : Role) (h : Follows item r view) :
    FollowsAll (chainTail item (isAt .dot)) (Reader.dotted r)
      fun later => later.flatMap fun (dot, a) => [dot.node role, view a] := by
  intro b e given st
  induction given using Reader.dotted.induct r e.token generalizing b with
  | case1 =>
    rw [Reader.dotted_of_other r (by simp), chainTail_eq]
    refine ⟨b, (builds_isAt _ b).bind_stores rfl ?_, st, Grown.refl b⟩
    rw [not_isAt st (by decide) (by simp)]
    exact stores_pure [] b
  | case2 t ts dot first ih =>
    obtain ⟨b₁, taken, st₁, grown₁⟩ := stores_expect st dot role
    obtain ⟨b₂, built, st₂, grown₂⟩ := h b₁ e ts st₁
    obtain ⟨b₃, others, st₃, grown₃⟩ := ih b₂ st₂
    have further := offset_ne st st₂ (r e.token ts).rest_suffix
    have grown := (grown₁.trans grown₂).trans grown₃
    rw [Reader.dotted_of_dot r dot, chainTail_eq]
    refine ⟨b₃, (builds_isAt _ b).bind_stores rfl ?_, st₃, grown⟩
    rw [isAt_head st dot, if_pos rfl]
    refine (builds_here b).bind_stores rfl
      (taken.bind (built.bind ((builds_here b₂).bind_stores rfl ?_)))
    dsimp only
    rw [if_neg further]
    show Stores _ b₂ (Node.roots b.nodes.size ([_] ++ [_] ++ List.flatMap _ _)) b₃
    rw [(grown₁.trans grown₂).roots, grown₁.roots]
    exact others.bind (stores_pure _ b₃)
  | case3 t ts dot =>
    rw [Reader.dotted_of_other r (by simpa using dot), chainTail_eq]
    refine ⟨b, (builds_isAt _ b).bind_stores rfl ?_, st, Grown.refl b⟩
    rw [not_isAt st (by decide) (by simpa using dot)]
    exact stores_pure [] b

/-- Nodes that cover what was taken make up a node with the same place. -/
theorem stores_covering {l : Label} {us : List Node} {fs : List Diagnostic} {rest : List Token}
    (st : Stands b e given) (grown : Grown b b' us fs) (st' : Stands b' e rest)
    (covers : Covers e.token given rest [.node l us]) :
    ∃ b'', Stores (finish b.scanner.token.start l.kind (Node.roots b.nodes.size us) l.missing
        l.level) b' (Node.rootAt b.nodes.size (.node l us)) b''
      ∧ Stands b'' e rest ∧ Grown b b'' [.node l us] fs := by
  obtain ⟨taken, -, fill⟩ := covers
  obtain ⟨start, stop⟩ := fill.tile
  have sound : Node.Sound (.node l us) := fill.sound _ List.mem_cons_self
  obtain ⟨b'', finished, same, grown'⟩ := stores_finish grown sound (st'.start.trans stop.symm)
  have here : l.extent.start = b.scanner.token.start := start.trans st.start.symm
  rw [here] at finished
  exact ⟨b'', finished, st'.of_scanner same, grown'⟩

theorem follows_chain (role : Role) (h : Follows item r view)
    (fills : Reader.Fills r fun a => [view a]) :
    Follows (dottedChain item (isAt .dot)) (Reader.chain r) (·.node role view) := by
  intro b e given st
  obtain ⟨b₁, first, st₁, grown₁⟩ := h b e given st
  obtain ⟨b₂, others, st₂, grown₂⟩ := follows_chainTail role h b₁ e _ st₁
  have covers := Reader.fills_chain role fills e.token given st.inLine
  obtain ⟨b₃, finished, st₃, grown₃⟩ := stores_covering st (grown₁.trans grown₂) st₂ covers
  rw [grown₁.roots] at finished
  refine ⟨b₃, (builds_here b).bind_stores rfl (first.bind (others.bind finished)), st₃, ?_⟩
  refine grown₃.of_findings ?_
  show _ ++ (_ ++ []) = _
  rw [List.append_nil]

/-! ## 4. Holes, templates and values -/

/-- A hole from its opening braces on. -/
theorem stores_mustache (st : Stands b e (t :: ts)) (h : t.kind = .mustacheOpen) :
    ∃ b', Stores mustache b
        (Node.rootAt b.nodes.size (Reader.mustacheBehind (.ofToken t) e.token ts).value.node) b'
      ∧ Stands b' e (Reader.mustacheBehind (.ofToken t) e.token ts).rest
      ∧ Grown b b' [(Reader.mustacheBehind (.ofToken t) e.token ts).value.node]
          (Reader.mustacheBehind (.ofToken t) e.token ts).findings := by
  have pathRule := follows_chain .part
    (follows_name (.ofList [.dot, .equals, .mustacheClose]) .part) (Reader.fills_name _ .part)
  have fallbackRule := follows_behind .equals (by decide) .part
    (follows_string (.ofList [.mustacheClose]) .part)
  obtain ⟨b₁, opening, st₁, grown₁⟩ := stores_expect st h .part
  obtain ⟨b₂, path, st₂, grown₂⟩ := pathRule b₁ e ts st₁
  have front := grown₁.trans grown₂
  obtain ⟨b₃, fallback, st₃, grown₃⟩ := fallbackRule b₂ e _ st₂
  have middle := front.trans grown₃
  obtain ⟨b₄, closing, st₄, grown₄⟩ := follows_expect .mustacheClose (by decide) .part b₃ e _ st₃
  obtain ⟨b₅, finished, st₅, grown₅⟩ := stores_covering st (middle.trans grown₄) st₄
    (Reader.covers_mustache st.inLine)
  rw [middle.roots, front.roots, grown₁.roots] at finished
  refine ⟨b₅, (builds_here b).bind_stores rfl (opening.bind (path.bind (fallback.bind (closing.bind
    finished)))), st₅, grown₅.of_findings ?_⟩
  show _ ++ (_ ++ (_ ++ [])) = _
  simp only [List.append_assoc, List.append_nil, List.nil_append]

/-- An element that is there and gets on goes into the list. -/
theorem builds_checked {before id : Nat} (h : b.scanner.token.start.offset ≠ before) :
    Builds (checked before (some id)) b id b := by
  refine (builds_here b).bind ?_
  rw [if_neg h]
  exact builds_pure id b

/-- One round of the loop over a list. -/
theorem stores_nodeList_cons {more : Build Bool} {element : Build (Option Nat)} {id : Nat}
    {ids : List Nat} {b'' : Builder} (go : Builds more b true b)
    (first : Stores element b (some id) b')
    (further : b'.scanner.token.start.offset ≠ b.scanner.token.start.offset)
    (later : Stores (nodeList more element) b' ids b'') :
    Stores (nodeList more element) b (id :: ids) b'' := by
  rw [nodeList_eq]
  refine go.bind_stores rfl ?_
  rw [if_pos rfl]
  exact (builds_here b).bind_stores rfl
    (first.bind ((builds_checked further).bind_stores rfl later.map))

theorem builds_nodeList_nil {more : Build Bool} (element : Build (Option Nat))
    (halt : Builds more b false b) : Builds (nodeList more element) b [] b := by
  rw [nodeList_eq]
  exact halt.bind (builds_pure [] b)

theorem builds_goesOn (st : Stands b e given) (stops : KindSet) :
    Builds (goesOn stops) b (!given.head?.all fun t => stops.has t.kind) b := by
  rw [← isAtAny_stops st stops]
  exact (builds_isAtAny _ b).map

theorem stores_piece_hole (st : Stands b e (t :: ts)) (stops : KindSet)
    (h : t.kind = .mustacheOpen) {id : Nat} (built : Stores mustache b id b') :
    Stores (return some (← piece stops)) b (some id) b' := by
  have piece : Stores (piece stops) b id b' := by
    refine (builds_isAt _ b).bind_stores rfl ?_
    rw [isAt_head st h]
    exact built
  exact piece.map

theorem stores_piece_literal (st : Stands b e (t :: ts)) (stops : KindSet)
    (h : t.kind ≠ .mustacheOpen) {id : Nat}
    (built : Stores (stringUntil (stops.insert .mustacheOpen)) b id b') :
    Stores (return some (← piece stops)) b (some id) b' := by
  have piece : Stores (piece stops) b id b' := by
    refine (builds_isAt _ b).bind_stores rfl ?_
    rw [not_isAt st (by decide) (by simpa using h)]
    exact built
  exact piece.map

/-- The pieces of a template. -/
theorem follows_parts (stops : KindSet) :
    FollowsAll (nodeList (goesOn stops) (return some (← piece stops))) (Reader.parts stops)
      (·.map TemplatePart.node) := by
  intro b e given st
  have next := builds_goesOn st stops
  induction given using Reader.parts.induct stops e.token generalizing b with
  | case1 =>
    rw [Reader.parts_of_stop (by simp)]
    exact ⟨b, (builds_nodeList_nil _ next).stores rfl, st, Grown.refl b⟩
  | case2 t ts h =>
    rw [List.head?_cons, Option.all_some, h] at next
    rw [Reader.parts_of_stop (by simpa using h)]
    exact ⟨b, (builds_nodeList_nil _ next).stores rfl, st, Grown.refl b⟩
  | case3 t ts go h hole ih =>
    rw [Bool.not_eq_true] at go
    rw [List.head?_cons, Option.all_some, go] at next
    obtain ⟨b₁, first, st₁, grown₁⟩ := stores_mustache st h
    obtain ⟨b₂, later, st₂, grown₂⟩ := ih b₁ st₁ (builds_goesOn st₁ stops)
    have further := offset_ne st st₁ (Reader.mustacheBehind (.ofToken t) e.token ts).rest_suffix
    have taken := stores_piece_hole st stops h first
    have built := stores_nodeList_cons next taken further later
    rw [← grown₁.roots_cons] at built
    rw [Reader.parts_of_hole go h]
    exact ⟨b₂, built, st₂, grown₁.trans grown₂⟩
  | case4 t ts go h inside ih =>
    rw [Bool.not_eq_true] at go
    rw [List.head?_cons, Option.all_some, go] at next
    have stop : (stops.insert .mustacheOpen).has t.kind = false := by simp [KindSet.insert, h, go]
    obtain ⟨b₁, first, st₁, grown₁⟩ := follows_string (stops.insert .mustacheOpen) .part b e _ st
    rw [Reader.literal_of_content stop] at first st₁ grown₁
    obtain ⟨b₂, later, st₂, grown₂⟩ := ih b₁ st₁ (builds_goesOn st₁ stops)
    have further := offset_ne st st₁ (List.dropWhile_suffix _)
    have taken := stores_piece_literal st stops h first
    have built := stores_nodeList_cons next taken further later
    rw [← grown₁.roots_cons] at built
    rw [Reader.parts_of_literal go h]
    exact ⟨b₂, built, st₂, grown₁.trans grown₂⟩

theorem follows_template (stops : KindSet) :
    Follows (templateUntil stops) (Reader.template stops) Template.node := by
  intro b e given st
  obtain ⟨b₁, parts, st₁, grown₁⟩ := follows_parts stops b e given st
  obtain ⟨b₂, finished, st₂, grown₂⟩ := stores_covering st grown₁ st₁
    (Reader.fills_template stops e.token given st.inLine)
  refine ⟨b₂, (builds_here b).bind_stores rfl (parts.bind finished), st₂, grown₂.of_findings ?_⟩
  show [] ++ (_ ++ []) = _
  rw [List.nil_append, List.append_nil]
  rfl

theorem stores_attempt {rule : Build (Option Nat)} {id : Nat} (h : Stores rule b (some id) b') :
    Stores (attempt rule) b (some id) b' :=
  (builds_get b).bind_stores rfl (h.bind (stores_pure _ b'))

/-- What came to nothing has left no trace. -/
theorem builds_attempt_none {rule : Build (Option Nat)} {us : List Node} {fs : List Diagnostic}
    (h : Builds rule b none b') (grown : Grown b b' us fs) : Builds (attempt rule) b none b := by
  refine (builds_get b).bind (h.bind ((builds_modify _ b').bind ?_))
  have nodes : b'.nodes.truncate b.nodes.size = b.nodes := by
    rw [Slots.truncate, grown.nodes, Slots.size, List.take_left]
  have findings : b'.findings.take b.findings.length = b.findings := by
    rw [grown.findings, List.take_left]
  rw [nodes, findings]
  exact builds_pure none b

theorem stores_loneMustache {id : Nat} (h : Stores mustache b id b') :
    Stores loneMustache b (if b'.scanner.token.kind.endsLine then some id else none) b' := by
  refine h.bind ((builds_isAtAny lineEnds b').bind_stores rfl ?_)
  rw [lineEnds_has]
  split <;> exact stores_pure _ b'

/-- Without opening braces there is nothing to try. -/
theorem attributeValue_of_other (other : (b.scanner.token.kind == .mustacheOpen) = false) :
    attributeValue b = templateUntil .empty b := by
  refine ((builds_isAt _ b).run_bind _).trans ?_
  rw [other]
  exact (builds_pure none b).run_bind _

/-- After an attempt that fails, the template is read from the state before it. -/
theorem attributeValue_of_failed (opening : (b.scanner.token.kind == .mustacheOpen) = true)
    (failed : Builds (attempt loneMustache) b none b) :
    attributeValue b = templateUntil .empty b := by
  refine ((builds_isAt _ b).run_bind _).trans ?_
  rw [opening]
  exact failed.run_bind _

/-- An attempt that comes to something is the value. -/
theorem stores_attributeValue_of_found {id : Nat}
    (opening : (b.scanner.token.kind == .mustacheOpen) = true)
    (found : Stores (attempt loneMustache) b (some id) b') : Stores attributeValue b id b' := by
  refine (builds_isAt _ b).bind_stores rfl ?_
  rw [opening]
  exact found.bind (stores_pure id b')

end Build

/-- What is tried of a value takes no more room than the template that is read instead: that has the
same hole as its first piece. -/
theorem Reader.size_hole_le {t : Token} (h : t.kind = .mustacheOpen) (stop : Token)
    (ts : List Token) :
    (Reader.mustacheBehind (.ofToken t) stop ts).value.node.size
      ≤ (Reader.template .empty stop (t :: ts)).value.node.size := by
  show _ ≤ Rose.sizeAll ((Reader.parts .empty stop (t :: ts)).value.map TemplatePart.node) + 1
  rw [Reader.parts_of_hole rfl h, List.map_cons, Rose.sizeAll, TemplatePart.node]
  omega

namespace Build

variable {b b' : Builder} {e : Scanner} {t : Token} {ts given : List Token}

/-- A template is read where there is no hole by itself. -/
theorem follows_value : Follows attributeValue Reader.value Value.node := by
  intro b e given st
  rcases Reader.head_cases .mustacheOpen given with ⟨t, ts, rfl, h⟩ | other
  · obtain ⟨b₁, hole, st₁, grown₁⟩ := stores_mustache st h
    have found := stores_loneMustache hole
    rw [st₁.isEmpty] at found
    by_cases lone : (Reader.mustacheBehind (.ofToken t) e.token ts).rest = []
    · rw [lone] at found
      rw [Reader.value_of_lone h lone]
      exact ⟨b₁, stores_attributeValue_of_found (isAt_head st h) (stores_attempt found), st₁,
        grown₁⟩
    · rw [List.isEmpty_eq_false_iff.mpr lone] at found
      have many : ¬Reader.IsLone e.token (t :: ts) := by
        rintro ⟨u, us, same, -, alone⟩
        obtain ⟨rfl, rfl⟩ := List.cons.inj same
        exact lone alone
      obtain ⟨b₂, template, st₂, grown₂⟩ := follows_template .empty b e _ st
      have more := grown₁.size_le grown₂ (Reader.size_hole_le h e.token ts)
      rw [Reader.value_of_template many]
      refine ⟨b₂, template.congr fun room => ?_, st₂, grown₂⟩
      exact attributeValue_of_failed (isAt_head st h)
        (builds_attempt_none (found.ends (more.trans room)) grown₁)
  · have absent : ¬Reader.IsLone e.token given := by
      rintro ⟨u, us, rfl, opening, -⟩
      exact other u rfl opening
    obtain ⟨b₁, template, rest⟩ := follows_template .empty b e given st
    rw [Reader.value_of_template absent]
    have same := attributeValue_of_other (not_isAt st (by decide) other)
    exact ⟨b₁, template.congr fun _ => same, rest⟩

/-! ## 5. Tags -/

theorem stores_tag (st : Stands b e (t :: ts)) (h : t.kind = .greaterThan) :
    ∃ b', Stores tagDescriptor b
        (Node.rootAt b.nodes.size (Reader.tagBehind (.ofToken t) e.token ts).value.node) b'
      ∧ Stands b' e []
      ∧ Grown b b' [(Reader.tagBehind (.ofToken t) e.token ts).value.node]
          (Reader.tagBehind (.ofToken t) e.token ts).findings := by
  have nameRule := follows_name (.ofList [.dot, .hashSign]) .subject
  have classRule := follows_behind .dot (by decide) .part
    (follows_chain .part (follows_template (.ofList [.dot, .hashSign])) (Reader.fills_template _))
  have referenceRule := follows_behind .hashSign (by decide) .part (follows_name .empty .part)
  obtain ⟨b₁, sigil, st₁, grown₁⟩ := stores_expect st h .sigil
  obtain ⟨b₂, name, st₂, grown₂⟩ := nameRule b₁ e ts st₁
  have front := grown₁.trans grown₂
  obtain ⟨b₃, classes, st₃, grown₃⟩ := classRule b₂ e _ st₂
  have middle := front.trans grown₃
  obtain ⟨b₄, reference, st₄, grown₄⟩ := referenceRule b₃ e _ st₃
  obtain ⟨b₅, finished, st₅, grown₅⟩ := stores_covering st (middle.trans grown₄) st₄
    (Reader.covers_tag st.inLine)
  rw [middle.roots, front.roots, grown₁.roots] at finished
  refine ⟨b₅, (builds_here b).bind_stores rfl (sigil.bind (name.bind (classes.bind (reference.bind
    finished)))), st₅.atEnd (Reader.tagBehind_rest (.ofToken t)), grown₅.of_findings ?_⟩
  show _ ++ (_ ++ (_ ++ [])) = _
  simp only [List.append_assoc, List.append_nil, List.nil_append]

/-! ## 6. Lines without a block -/

/-- The token that ends a line becomes a leaf, and the machine comes to stand behind the line. -/
theorem stores_lineEnd (st : Stands b e []) :
    ∃ b', Stores lineEnd b (Node.rootAt b.nodes.size ((Leaf.ofToken e.token).node .part)) b'
      ∧ b'.scanner = e.scan ∧ Grown b b' [(Leaf.ofToken e.token).node .part] [] := by
  obtain ⟨b', built, moved, grown⟩ := stores_token st.within .part
  have here : b.scanner = e := st.passes
  rw [here] at built moved grown
  refine ⟨b', (builds_isAt .endOfText b).bind_stores rfl ?_, moved, grown⟩
  rw [here]
  cases kind : e.token.kind with
  | endOfText => exact built
  | lineBreak =>
    refine (builds_isAt .lineBreak b).bind_stores rfl ?_
    rw [here, kind]
    exact built
  | _ => have ends := st.ends; rw [kind] at ends; exact absurd ends (by decide)

/-- A rule finds a line of this kind, with these nodes between its indentation and its end. -/
def Finds (rule : Build Found) (b : Builder) (e : Scanner) (indent : Option Nat) (kind : Kind)
    (nodes : List Node) (findings : List Diagnostic) : Prop :=
  ∃ b', Stores rule b
      (kind, indent.toList
        ++ Node.roots b.nodes.size (nodes ++ [(Leaf.ofToken e.token).node .part])) b'
    ∧ b'.scanner = e.scan
    ∧ Grown b b' (nodes ++ [(Leaf.ofToken e.token).node .part]) findings

theorem finds_closeLine {nodes : List Node} {fs : List Diagnostic} (grown : Grown b b' nodes fs)
    (st : Stands b' e []) (kind : Kind) (indent : Option Nat) :
    ∃ b'', Stores (closeLine kind indent (Node.roots b.nodes.size nodes)) b'
        (kind, indent.toList
          ++ Node.roots b.nodes.size (nodes ++ [(Leaf.ofToken e.token).node .part])) b''
      ∧ b''.scanner = e.scan
      ∧ Grown b b'' (nodes ++ [(Leaf.ofToken e.token).node .part]) fs := by
  obtain ⟨b'', ending, moved, grown'⟩ := stores_lineEnd st
  have whole := grown.trans grown'
  rw [List.append_nil] at whole
  refine ⟨b'', ?_, moved, whole⟩
  rw [grown.roots, ← List.append_assoc]
  exact ending.map

theorem finds_text (st : Stands b e (t :: ts)) (indent : Option Nat) :
    Finds (textLine indent) b e indent .textLine
      (Body.text (.ofToken t) (Reader.template .empty e.token ts).value).nodes
      (Reader.template .empty e.token ts).findings := by
  obtain ⟨b₁, sigil, st₁, grown₁⟩ := stores_head st .sigil
  obtain ⟨b₂, content, st₂, grown₂⟩ := follows_template .empty b₁ e ts st₁
  have front := grown₁.trans grown₂
  have nothing := Reader.readsUpTo_template [] e.token ts
  obtain ⟨b₃, closed, rest⟩ := finds_closeLine front (st₂.atEnd nothing.eq_nil) .textLine indent
  rw [grown₁.roots] at closed
  exact ⟨b₃, sigil.bind (content.bind closed), rest⟩

theorem finds_mountingPoint (st : Stands b e (t :: ts)) (indent : Option Nat) :
    Finds (mountingPoint indent) b e indent .mountingPoint
      (Body.mountingPoint (.ofToken t) (Reader.name .empty e.token ts).value).nodes
      (Reader.name .empty e.token ts).findings := by
  obtain ⟨b₁, sigil, st₁, grown₁⟩ := stores_head st .sigil
  obtain ⟨b₂, name, st₂, grown₂⟩ := follows_name .empty .subject b₁ e ts st₁
  have front := grown₁.trans grown₂
  have nothing := Reader.readsUpTo_name [] e.token ts
  obtain ⟨b₃, closed, rest⟩ := finds_closeLine front (st₂.atEnd nothing.eq_nil) .mountingPoint
    indent
  rw [grown₁.roots] at closed
  exact ⟨b₃, sigil.bind (name.bind closed), rest⟩

/-- The sigil that opens a line, which says whether the line is a property. -/
theorem stores_sigil (st : Stands b e (t :: ts)) :
    ∃ b', Stores token b (Node.rootAt b.nodes.size ((Leaf.ofToken t).node .sigil)) b'
      ∧ (∃ entry, entry.kind = t.kind ∧ Builds
          (Build.entry (Node.rootAt b.nodes.size ((Leaf.ofToken t).node .sigil))) b' entry b')
      ∧ Stands b' e ts ∧ Grown b b' [(Leaf.ofToken t).node .sigil] [] := by
  obtain ⟨b₁, sigil, st₁, grown₁⟩ := stores_head st .sigil
  exact ⟨b₁, sigil, ⟨_, rfl, builds_entry grown₁.get?_root⟩, st₁, grown₁⟩

theorem finds_attribute (st : Stands b e (t :: ts)) (h : t.kind = .hashSign)
    (indent : Option Nat) :
    Finds (attributeOrProperty indent) b e indent .attribute
      (Body.attribute (Reader.attributeBehind (.ofToken t) e.token ts).value).nodes
      (Reader.attributeBehind (.ofToken t) e.token ts).findings := by
  obtain ⟨b₁, sigil, ⟨entry, kind, stored⟩, st₁, grown₁⟩ := stores_sigil st
  obtain ⟨b₂, binding, st₂, grown₂⟩ := follows_name (.ofList [.equals]) .subject b₁ e ts st₁
  have front := grown₁.trans grown₂
  obtain ⟨b₃, value, st₃, grown₃⟩ := follows_behind .equals (by decide) .part follows_value
    b₂ e _ st₂
  have middle := front.trans grown₃
  obtain ⟨b₄, closed, moved, grown₄⟩ := finds_closeLine middle
    (st₃.atEnd (Reader.attributeBehind_rest (.ofToken t))) .attribute indent
  rw [front.roots, grown₁.roots] at closed
  refine ⟨b₄, sigil.bind (stored.bind_stores rfl ?_), moved, grown₄.of_findings ?_⟩
  · rw [kind, h]
    exact binding.bind ((stores_pure [] b₂).bind (value.bind closed))
  · show _ ++ (_ ++ []) = _
    simp only [List.append_nil, List.nil_append]

theorem finds_property (st : Stands b e (t :: ts)) (h : t.kind = .percentSign)
    (indent : Option Nat) :
    Finds (attributeOrProperty indent) b e indent .attribute
      (Body.attribute (Reader.propertyBehind (.ofToken t) e.token ts).value).nodes
      (Reader.propertyBehind (.ofToken t) e.token ts).findings := by
  have bindingRule := follows_name (.ofList [.equals, .atSign]) .subject
  have triggerRule := follows_behind .atSign (by decide) .trigger
    (follows_name (.ofList [.equals]) .trigger)
  obtain ⟨b₁, sigil, ⟨entry, kind, stored⟩, st₁, grown₁⟩ := stores_sigil st
  obtain ⟨b₂, binding, st₂, grown₂⟩ := bindingRule b₁ e ts st₁
  have front := grown₁.trans grown₂
  obtain ⟨b₃, trigger, st₃, grown₃⟩ := triggerRule b₂ e _ st₂
  have middle := front.trans grown₃
  obtain ⟨b₄, value, st₄, grown₄⟩ := follows_behind .equals (by decide) .part follows_value
    b₃ e _ st₃
  have whole := middle.trans grown₄
  obtain ⟨b₅, closed, moved, grown₅⟩ := finds_closeLine whole
    (st₄.atEnd (Reader.propertyBehind_rest (.ofToken t))) .attribute indent
  rw [middle.roots, front.roots, grown₁.roots] at closed
  refine ⟨b₅, sigil.bind (stored.bind_stores rfl ?_), moved, grown₅.of_findings ?_⟩
  · rw [kind, h]
    exact binding.bind (trigger.bind (value.bind closed))
  · show _ ++ (_ ++ (_ ++ [])) = _
    simp only [List.append_assoc, List.append_nil, List.nil_append]

theorem finds_handler (st : Stands b e (t :: ts)) (indent : Option Nat) :
    Finds (eventHandler indent) b e indent .handler
      (Body.handler (Reader.handlerBehind (.ofToken t) e.token ts).value).nodes
      (Reader.handlerBehind (.ofToken t) e.token ts).findings := by
  have eventRule := follows_name (.ofList [.dot, .equals]) .subject
  have modifierRule := follows_behind .dot (by decide) .modifier (follows_chain .modifier
    (follows_name (.ofList [.dot, .equals]) .modifier) (Reader.fills_name _ .modifier))
  have parameterRule := follows_behind .colon (by decide) .part (follows_template .empty)
  obtain ⟨b₁, sigil, st₁, grown₁⟩ := stores_head st .sigil
  obtain ⟨b₂, event, st₂, grown₂⟩ := eventRule b₁ e ts st₁
  have grown₂ := grown₁.trans grown₂
  obtain ⟨b₃, modifiers, st₃, grown₃⟩ := modifierRule b₂ e _ st₂
  have grown₃ := grown₂.trans grown₃
  obtain ⟨b₄, equals, st₄, grown₄⟩ := follows_expect .equals (by decide) .part b₃ e _ st₃
  obtain ⟨b₅, action, st₅, grown₅⟩ := follows_name (.ofList [.colon]) .part b₄ e _ st₄
  have call := grown₄.trans grown₅
  have grown₅ := grown₃.trans call
  obtain ⟨b₆, parameter, st₆, grown₆⟩ := parameterRule b₅ e _ st₅
  have grown₆ := grown₅.trans grown₆
  obtain ⟨b₇, closed, moved, grown₇⟩ := finds_closeLine grown₆
    (st₆.atEnd (Reader.handlerBehind_rest (.ofToken t))) .handler indent
  rw [grown₅.roots, grown₃.roots, grown₄.roots, grown₂.roots, grown₁.roots] at closed
  refine ⟨b₇, sigil.bind (event.bind (modifiers.bind (equals.bind (action.bind (parameter.bind
    closed))))), moved, grown₇.of_findings ?_⟩
  show _ ++ (_ ++ (_ ++ (_ ++ (_ ++ [])))) = _
  simp only [List.append_assoc, List.append_nil, List.nil_append]

theorem finds_unreadable (st : Stands b e (t :: ts)) (indent : Option Nat) :
    Finds (unreadable indent) b e indent .commentLine
      (Body.comment (some (Reader.literal .empty e.token (t :: ts)).value)).nodes
      (Reader.unreadable t.kind e.token (t :: ts)).findings := by
  have reported := Grown.reported b [.ofExtent .unexpectedToken [t.kind.display] t.extent]
  have report := builds_report .unexpectedToken [t.kind.display] b
  rw [st.token, List.headD_cons] at report
  have st₁ : Stands { b with findings := b.findings
    ++ [.ofExtent .unexpectedToken [t.kind.display] t.extent] } e (t :: ts) := st.of_scanner rfl
  obtain ⟨b₂, words, st₂, grown₂⟩ := follows_string .empty .part _ e _ st₁
  have nothing := Reader.readsUpTo_literal [] e.token (t :: ts)
  obtain ⟨b₃, closed, moved, grown₃⟩ := finds_closeLine (reported.trans grown₂)
    (st₂.atEnd nothing.eq_nil) .commentLine indent
  refine ⟨b₃, (builds_current b).bind_stores rfl ?_, moved, grown₃⟩
  rw [st.token, List.headD_cons]
  exact report.bind_stores rfl (words.bind closed)

theorem finds_comment (within : b.scanner.Within) (comment : b.scanner.token = t)
    (behind : b.scanner.scan = e) (ends : e.token.kind.endsLine = true) (indent : Option Nat) :
    Finds (do closeLine .commentLine indent [← token]) b e indent .commentLine
      (Body.comment (some (.ofToken t))).nodes [] := by
  obtain ⟨b₁, words, moved, grown₁⟩ := stores_token within .part
  rw [comment] at words grown₁
  have here : b₁.scanner = e := moved.trans behind
  have st : Stands b₁ e [] := ⟨here, by simp, by simp, ends, moved ▸ within.scan⟩
  obtain ⟨b₂, closed, rest⟩ := finds_closeLine grown₁ st .commentLine indent
  exact ⟨b₂, words.bind closed, rest⟩

/-- What the machine makes of the content of a line: a tag, or a whole line without a block. -/
def FindsContent (b : Builder) (e : Scanner) (indent : Option Nat) (content : Reader.Content)
    (findings : List Diagnostic) : Prop :=
  match content with
  | .element tag => b.scanner.token.kind = .greaterThan
      ∧ ∃ b', Stores tagDescriptor b (Node.rootAt b.nodes.size tag.node) b' ∧ Stands b' e []
        ∧ Grown b b' [tag.node] findings
  | .simple body => b.scanner.token.kind ≠ .greaterThan
      ∧ Finds (simpleLine indent) b e indent body.kind body.nodes findings

/-- The kind of the current token says which rule finds the line. -/
theorem finds_simple {kind k : Kind} {indent : Option Nat} {nodes : List Node}
    {fs gs : List Diagnostic} (here : b.scanner.token.kind = kind)
    (found : Finds (lineOf indent kind) b e indent k nodes fs) (same : gs = fs) :
    Finds (simpleLine indent) b e indent k nodes gs := by
  subst same
  subst here
  obtain ⟨b', built, rest⟩ := found
  exact ⟨b', (builds_current b).bind_stores rfl built, rest⟩

theorem finds_content (st : Stands b e (t :: ts)) (comment : t.kind ≠ .comment)
    (indent : Option Nat) :
    FindsContent b e indent (Reader.content e.token (t :: ts)).value
      (Reader.content e.token (t :: ts)).findings := by
  have here : b.scanner.token.kind = t.kind := by rw [st.token]; rfl
  rw [Reader.content]
  dsimp only
  split
  case h_1 kind =>
    obtain ⟨b', tag, st', grown⟩ := stores_tag st kind
    exact ⟨here.trans kind, b', tag, st', grown.of_findings (List.append_nil _)⟩
  case h_2 kind =>
    rw [kind] at here
    exact ⟨by rw [here]; decide,
      finds_simple here (finds_attribute st kind indent) (List.append_nil _)⟩
  case h_3 kind =>
    rw [kind] at here
    exact ⟨by rw [here]; decide,
      finds_simple here (finds_property st kind indent) (List.append_nil _)⟩
  case h_4 kind =>
    rw [kind] at here
    exact ⟨by rw [here]; decide, finds_simple here (finds_handler st indent) (List.append_nil _)⟩
  case h_5 kind | h_6 kind =>
    rw [kind] at here
    exact ⟨by rw [here]; decide, finds_simple here (finds_text st indent) (List.append_nil _)⟩
  case h_7 kind | h_8 kind =>
    rw [kind] at here
    exact ⟨by rw [here]; decide,
      finds_simple here (finds_mountingPoint st indent) (List.append_nil _)⟩
  case h_9 kind => exact absurd kind comment
  case h_10 greaterThan _ _ _ _ _ _ _ _ =>
    have atEnd := (Kind.ne_of_endsLine_eq_false (st.inner t List.mem_cons_self)).2
    have rule : lineOf indent t.kind = unreadable indent := by rw [lineOf] <;> assumption
    refine ⟨fun tag => greaterThan (here.symm.trans tag), ?_⟩
    refine finds_simple here ?_ rfl
    rw [rule]
    exact finds_unreadable st indent

end Build

end OffsideMarkup
