/-
OffsideMarkup.Proofs.FragmentPlaces — what the host is asked about, and where in the fragment.

A fragment is put together from words of its own language and from names of the markup, with a mark
between two of them. The markup knows four characters that end a line and the host three ways to do
so, of which the fragment counts one; and a name may change its length in lower case. The place is
right all the same: a name has no line breaks in it, and neither has its lower case, so the only
lines of a fragment are those of its own words, which end with line feeds.

* `editorEnd` — where a text ends for an editor, whose lines end with LF, CR or CRLF.
  `Fragment.Splits` says of a fragment that its place is that of the mark, and of no other cut.
* `Inquiry` — the fragments there are, each with the names in it and the texts around the mark.
* `Leaf.IsNameIn` — a name is a piece of the text without breaks in it and without space around it.
* `Line.Explains`, `Line.Offers` — which inquiries are made about a line, by the part of it that the
  cursor is on. The tag in them is that of the element whose child the line is, or that of the line.
* `Fragment.Puts` — the fragment puts the inquiry, all of the above together.
-/
import OffsideMarkup.Editor.Hover
import OffsideMarkup.Proofs.NodeArena
import OffsideMarkup.Proofs.NodePlaces
import OffsideMarkup.Proofs.OutlineRanges

namespace OffsideMarkup

/-! ## 1. Places in a fragment -/

/-- Where a text ends for an editor, if it starts here. A line ends with a line feed, a carriage
return, or both. -/
def editorEnd (here : Position) : List Char → Position
  | [] => here
  | '\r' :: '\n' :: cs => editorEnd ⟨here.line + 1, 0⟩ cs
  | c :: cs =>
    if c = '\n' ∨ c = '\r' then editorEnd ⟨here.line + 1, 0⟩ cs
    else editorEnd ⟨here.line, here.column + unitWidth c⟩ cs

/-- The position behind a character, if only line feeds end lines. -/
def Position.past (p : Position) (c : Char) : Position :=
  if c = '\n' then ⟨p.line + 1, 0⟩ else ⟨p.line, p.column + unitWidth c⟩

/-- The place of the fragment is the cut between two texts: the fragment is the two together, an
editor that reads the first one ends at the place, and no other cut of the fragment has it. -/
structure Fragment.Splits (g : Fragment) (front back : List Char) : Prop where
  source : g.source = front ++ back
  place : g.position = editorEnd ⟨0, 0⟩ front
  alone : ∀ xs ys, g.source = xs ++ ys → editorEnd ⟨0, 0⟩ xs = g.position → xs = front

section

variable {cs xs ys front back : List Char} {p here : Position}

theorem editorEnd_eq_foldl (none : '\r' ∉ cs) :
    editorEnd here cs = cs.foldl Position.past here := by
  fun_induction editorEnd here cs with
  | case1 => rfl
  | case2 => exact absurd List.mem_cons_self none
  | case3 here c cs _ brk ih =>
    obtain ⟨other, none⟩ := List.ne_and_not_mem_of_not_mem_cons none
    have feed : c = '\n' := brk.resolve_right fun is => other is.symm
    rw [ih none, List.foldl_cons, Position.past, if_pos feed]
  | case4 here c cs _ brk ih =>
    have none := (List.ne_and_not_mem_of_not_mem_cons none).2
    rw [ih none, List.foldl_cons, Position.past, if_neg fun feed => brk (.inl feed)]

theorem endOf_eq_foldl (cs : List Char) : Fragment.endOf cs = cs.foldl Position.past ⟨0, 0⟩ := by
  induction cs using List.reverseRecOn with
  | nil => rfl
  | append_singleton cs c ih =>
    rw [List.foldl_concat, ← ih, Position.past]
    split
    · next feed => simp [Fragment.endOf, feed]; rfl
    · next other => simp [Fragment.endOf, other, unitLength_cons, Nat.add_comm]

/-- Characters lead to a later line, or further on the line. -/
theorem foldl_past_later (p : Position) (cs : List Char) :
    p.line < (cs.foldl Position.past p).line
      ∨ p.line = (cs.foldl Position.past p).line
        ∧ p.column + cs.length ≤ (cs.foldl Position.past p).column := by
  induction cs generalizing p with
  | nil => exact .inr ⟨rfl, Nat.le_refl _⟩
  | cons c cs ih =>
    have wide := unitWidth_pos c
    have later := ih (p.past c)
    rw [List.foldl_cons, List.length_cons]
    unfold Position.past at later ⊢
    split at later <;> simp_all <;> omega

theorem eq_nil_of_foldl_past (same : cs.foldl Position.past p = p) : cs = [] := by
  have later := foldl_past_later p cs
  rw [same] at later
  exact List.length_eq_zero_iff.mp (by omega)

/-- Without carriage returns an editor has one cut at the place. -/
theorem Fragment.splits_between (language : HostLanguage) (none : '\r' ∉ front ++ back) :
    (Fragment.between language front back).Splits front back := by
  have inFront : '\r' ∉ front := fun mem => none (List.mem_append_left _ mem)
  have place : Fragment.endOf front = editorEnd ⟨0, 0⟩ front := by
    rw [endOf_eq_foldl, editorEnd_eq_foldl inFront]
  refine ⟨rfl, place, fun xs ys split same => ?_⟩
  have split : front ++ back = xs ++ ys := split
  have inXs : '\r' ∉ xs := fun mem => none (split ▸ List.mem_append_left _ mem)
  have same : editorEnd ⟨0, 0⟩ xs = editorEnd ⟨0, 0⟩ front := same.trans place
  rw [editorEnd_eq_foldl inXs, editorEnd_eq_foldl inFront] at same
  rcases List.append_eq_append_iff.mp split with ⟨more, rfl, -⟩ | ⟨more, rfl, -⟩
  · rw [List.foldl_append] at same
    rw [eq_nil_of_foldl_past same, List.append_nil]
  · rw [List.foldl_append] at same
    rw [eq_nil_of_foldl_past same.symm, List.append_nil]

end

/-! ## 2. Lower case -/

section

variable {c : Char} {cs : List Char}

/-- The code points of the characters that end lines. -/
theorem isLineBreak_iff : isLineBreak c = true ↔ c.toNat ∈ [0xa, 0xd, 0x2028, 0x2029] := by
  have code (d : Char) : c = d ↔ c.toNat = d.toNat := Char.toNat_inj.symm
  simp only [isLineBreak, Bool.or_eq_true, beq_iff_eq, code, List.mem_cons, List.not_mem_nil,
    or_false, or_assoc]
  rfl

/-- The small letters of a run are those from its target on. None of them ends a line. -/
theorem unbroken_lowercaseRuns : ∀ run ∈ lowercaseRuns, ∀ code ∈ [0xa, 0xd, 0x2028, 0x2029],
    code < run.2.2.2 ∨ run.2.2.2 + (run.2.1 - run.1) < code := by
  decide +kernel

theorem isLineBreak_lowercaseLetter (inner : isLineBreak c = false) :
    isLineBreak (lowercaseLetter c) = false := by
  unfold lowercaseLetter
  split
  · next first last step target found =>
    have holds := List.find?_some found
    simp only [inRun, Bool.and_eq_true, decide_eq_true_eq] at holds
    have clear := unbroken_lowercaseRuns _ (List.mem_of_find?_eq_some found)
    have point (n : Nat) : (Char.ofNat n).toNat = n ∨ (Char.ofNat n).toNat = 0 := by
      by_cases valid : n.isValidChar
      · exact .inl (by rw [Char.ofNat, dif_pos valid]; rfl)
      · exact .inr (by rw [Char.ofNat, dif_neg valid]; rfl)
    rw [← Bool.not_eq_true, isLineBreak_iff]
    intro brk
    rcases point (target + (c.toNat - first)) with same | none
    · rw [same] at brk
      have apart := clear _ brk
      dsimp only at apart
      omega
    · rw [none] at brk
      exact absurd brk (by decide)
  · exact inner

/-- In lower case a character becomes one character or two. They end no line if it does not. -/
theorem exists_small (before : List Char) (c : Char) (cs : List Char) :
    ∃ small, lowercaseFrom before (c :: cs) = small ++ lowercaseFrom (c :: before) cs
      ∧ small ≠ [] ∧ (isLineBreak c = false → Unbroken small) := by
  refine ⟨_, rfl, ?_⟩
  unfold Unbroken
  split
  · simp [isLineBreak]
  · split
    · split <;> simp [isLineBreak]
    · exact ⟨List.cons_ne_nil _ _, fun inner =>
        List.forall_mem_singleton.mpr (isLineBreak_lowercaseLetter inner)⟩

theorem unbroken_lowercaseFrom (before : List Char) (h : Unbroken cs) :
    Unbroken (lowercaseFrom before cs) := by
  induction cs generalizing before with
  | nil => exact h
  | cons c cs ih =>
    obtain ⟨own, later⟩ := List.forall_mem_cons.mp h
    obtain ⟨small, split, -, unbroken⟩ := exists_small before c cs
    rw [split, unbroken_append]
    exact ⟨unbroken own, ih (c :: before) later⟩

theorem lowercase_ne_nil (h : cs ≠ []) : lowercase cs ≠ [] := by
  obtain ⟨c, later, rfl⟩ := List.exists_cons_of_ne_nil h
  obtain ⟨small, split, some_text, -⟩ := exists_small [] c later
  rw [lowercase, split]
  exact List.append_ne_nil_of_left_ne_nil some_text _

end

/-! ## 3. Inquiries -/

/-- What the host is asked about or for, by the names of the markup that are put into the fragment.
The last three are what a sigil may be followed by: tags, and attributes or properties of a tag. -/
inductive Inquiry
  | tag (name : Leaf)
  | attribute (tag name : Leaf)
  | event (tag name : Leaf)
  | property (tag name : Leaf)
  | tags
  | attributes (tag : Leaf)
  | properties (tag : Leaf)

namespace Inquiry

/-- The names put into the fragment. -/
def names : Inquiry → List Leaf
  | .tags => []
  | .tag n | .attributes n | .properties n => [n]
  | .attribute t n | .event t n | .property t n => [t, n]

/-- The tag as it stands in the fragment, in lower case where it is looked up in a map of types. -/
def tag? : Inquiry → Option (List Char)
  | .tags => none
  | .tag t | .attribute t _ | .event t _ | .attributes t => some t.text
  | .property t _ | .properties t => some (lowercase t.text)

def language : Inquiry → HostLanguage
  | .tag _ | .attribute .. | .event .. | .tags | .attributes _ => .html
  | .property .. | .properties _ => .ts

/-- What stands in front of the mark. -/
def front : Inquiry → List Char
  | .tag n => "<".toList ++ n.text
  | .attribute t n => "<".toList ++ t.text ++ (" ".toList ++ n.text)
  | .event t n => "<".toList ++ t.text ++ " on".toList ++ n.text
  | .property t n =>
    "(null as HTMLElementTagNameMap['".toList ++ lowercase t.text ++ "']).".toList ++ n.text
  | .tags => "<".toList
  | .attributes t => "<".toList ++ t.text ++ " ".toList
  | .properties t =>
    "\x7b\n    let _: HTMLElementTagNameMap['".toList ++ lowercase t.text ++ "']\n    _!.".toList

/-- What stands behind it. -/
def back : Inquiry → List Char
  | .tag _ => ">".toList
  | .attribute .. => " />".toList
  | .event .. => "=\"\" />".toList
  | .properties _ => "\n\x7d".toList
  | .property .. | .tags | .attributes _ => []

def fragment (q : Inquiry) : Fragment := .between q.language q.front q.back

/-- Names without breaks bring no carriage return into a fragment, and its own words have none. -/
theorem splits_fragment (q : Inquiry) (h : ∀ n ∈ q.names, Unbroken n.text) :
    q.fragment.Splits q.front q.back := by
  have clear : ∀ n ∈ q.names, '\r' ∉ n.text ∧ '\r' ∉ lowercase n.text := fun n hn =>
    ⟨fun mem => absurd (h n hn _ mem) (by decide),
      fun mem => absurd (unbroken_lowercaseFrom [] (h n hn) _ mem) (by decide)⟩
  have both {xs ys : List Char} (hx : '\r' ∉ xs) (hy : '\r' ∉ ys) : '\r' ∉ xs ++ ys :=
    List.not_mem_append hx hy
  unfold fragment
  apply Fragment.splits_between q.language
  refine both ?_ (by unfold back; split <;> decide)
  cases q with
  | tag n =>
    obtain ⟨name, -⟩ := clear n (by simp [names])
    exact both (by decide) name
  | «attribute» t n =>
    obtain ⟨tag, -⟩ := clear t (by simp [names])
    obtain ⟨name, -⟩ := clear n (by simp [names])
    exact both (both (by decide) tag) (both (by decide) name)
  | event t n =>
    obtain ⟨tag, -⟩ := clear t (by simp [names])
    obtain ⟨name, -⟩ := clear n (by simp [names])
    exact both (both (both (by decide) tag) (by decide)) name
  | property t n =>
    obtain ⟨-, tag⟩ := clear t (by simp [names])
    obtain ⟨name, -⟩ := clear n (by simp [names])
    exact both (both (both (by decide) tag) (by decide)) name
  | tags =>
    unfold front
    decide
  | attributes t =>
    obtain ⟨tag, -⟩ := clear t (by simp [names])
    exact both (both (by decide) tag) (by decide)
  | properties t =>
    obtain ⟨-, tag⟩ := clear t (by simp [names])
    exact both (both (by decide) tag) (by decide)

end Inquiry

/-! ## 4. Names -/

/-- The leaf names something by a piece of the text: what it says stands there behind the space in
front, is on one line, and has no space at its ends. -/
structure Leaf.IsNameIn (text : List Char) (n : Leaf) : Prop where
  piece : ∃ before after, text = before ++ n.text ++ after
    ∧ n.start.offset + byteLength (n.source.takeWhile isInlineSpace) = byteLength before
  unbroken : Unbroken n.text
  trimmed : ∀ c, c ∈ n.text.head? ∨ c ∈ n.text.getLast? → isInlineSpace c = false

/-- The names on a line that the host may be asked about. -/
def Row.names : Row → List Leaf
  | .element _ t => [t.name]
  | .simple _ (.attribute a) => a.binding :: a.trigger.toList.map Prod.snd
  | .simple _ (.handler h) => [h.event]
  | .simple _ _ => []

/-- The nodes of what a line says, between its two ends. -/
def Row.parts : Row → List Node
  | .element _ t => [t.node]
  | .simple _ b => b.nodes

/-- Trimming leaves no space at the ends. -/
theorem trimInline_ends {cs : List Char} {c : Char}
    (h : c ∈ (trimInline cs).head? ∨ c ∈ (trimInline cs).getLast?) : isInlineSpace c = false := by
  have trim : trimInline cs = (cs.dropWhile isInlineSpace).rdropWhile isInlineSpace := rfl
  rcases h with first | last
  · have pre := List.rdropWhile_prefix isInlineSpace (cs.dropWhile isInlineSpace)
    rw [← trim] at pre
    have first : (cs.dropWhile isInlineSpace).head? = some c := by
      obtain ⟨more, split⟩ := pre
      rw [← split, List.head?_append, Option.mem_def.mp first]
      rfl
    have solid := List.head?_dropWhile_not isInlineSpace cs
    rw [first] at solid
    exact solid
  · have some_text : trimInline cs ≠ [] := fun nothing => by simp [nothing] at last
    rw [trim] at last some_text
    have solid := List.rdropWhile_last_not isInlineSpace _ some_text
    rw [List.getLast?_eq_some_getLast some_text, Option.mem_some_iff] at last
    rw [last] at solid
    simpa using solid

section

variable {variant : Variant} {text : List Char} {l : Line} {n : Leaf}

theorem isNameIn_of_node {role : Role}
    (inTree : n.node role ∈ (SourceFile.ofText variant text).root.subtrees)
    (inLine : n.kind ≠ .lineBreak) : n.IsNameIn text := by
  obtain ⟨space, behind, front, parts, spaces⟩ := exists_trimInline n.source
  obtain ⟨before, after, split, start⟩ := placed_of_mem_subtrees inTree
  rw [Node.source_leaf] at split
  refine ⟨⟨before ++ space, behind ++ after, ?_, ?_⟩, ?_, fun c => trimInline_ends⟩
  · rw [split, parts, ← Leaf.text]
    simp only [List.append_assoc]
  · rw [front, byteLength_append, ← start]
    rfl
  · have straight : (n.node role).label.extent.crossesLine = false := by
      simp [Leaf.node, Rose.label, Leaf.extent, Leaf.stop, inLine, Extent.crossesLine,
        Location.after]
    have whole := (charted_root variant text _ inTree).crossesLine.mp straight
    rw [slice_of_mem_subtrees inTree, Node.source_leaf, parts] at whole
    exact (unbroken_append.mp (unbroken_append.mp whole).1).2

theorem parts_ofTokenLine (tl : TokenLine) :
    (Row.ofTokenLine tl).parts = (Reader.content tl.stop tl.body).value.nodes := by
  rw [Row.ofTokenLine]
  cases (Reader.content tl.stop tl.body).value <;> rfl

/-- A name is one of the parts, or right under one. -/
theorem exists_part_of_names {r : Row} (hn : n ∈ r.names) :
    ∃ role, ∃ u ∈ r.parts, n.node role = u ∨ n.node role ∈ u.children := by
  cases r with
  | element f t =>
    obtain rfl := List.mem_singleton.mp hn
    refine ⟨.subject, t.node, List.mem_singleton_self _, .inr ?_⟩
    simp [Tag.node, Node.compose, Rose.children]
  | simple f b =>
    cases b with
    | «attribute» a =>
      rcases List.mem_cons.mp hn with rfl | later
      · exact ⟨.subject, _, by simp [Row.parts, Body.nodes], .inl rfl⟩
      · obtain ⟨⟨dot, event⟩, found, rfl⟩ := List.mem_map.mp later
        refine ⟨.trigger, event.node .trigger, ?_, .inl rfl⟩
        simp [Row.parts, Body.nodes, Option.mem_toList.mp found, pairNodes]
    | handler h =>
      obtain rfl := List.mem_singleton.mp hn
      exact ⟨.subject, _, by simp [Row.parts, Body.nodes], .inl rfl⟩
    | _ => exact absurd hn List.not_mem_nil

theorem parts_subset_children (l : Line) : l.row.parts ⊆ l.node.children := by
  intro u hu
  cases l with
  | simple f b => exact List.mem_append_left _ (List.mem_append_right _ hu)
  | element f t ls =>
    exact List.mem_append_left _ (List.mem_append_left _ (List.mem_append_right _ hu))

/-- The names on the lines of a file name something. -/
theorem isNameIn_of_names (hl : l ∈ Line.withinAll (SourceFile.ofText variant text).lines)
    (hn : n ∈ l.row.names) : n.IsNameIn text := by
  obtain ⟨role, u, hu, under⟩ := exists_part_of_names hn
  have inTree := Rose.mem_subtrees_child (node_mem_subtrees hl) (parts_subset_children l hu)
  have inPart : n.node role ∈ u.subtrees := by
    rcases under with rfl | child
    · exact Rose.self_mem_subtrees _
    · exact Rose.mem_subtrees_child u.self_mem_subtrees child
  have kind : n.kind ≠ .lineBreak := by
    obtain ⟨tl, -, row⟩ := exists_tokenLine hl
    rw [row, parts_ofTokenLine] at hu
    have label : (n.node role).label ∈ Rose.preorderAll
        (Reader.content tl.stop tl.body).value.nodes := by
      rw [← Rose.map_label_subtreesAll]
      exact List.mem_map_of_mem (Rose.mem_subtreesAll.mpr ⟨u, hu, inPart⟩)
    have inner := isInner_content tl n (List.mem_filterMap.mpr ⟨_, label, rfl⟩)
    exact (Kind.isSilent_of_isInner inner).2
  rcases under with rfl | child
  · exact isNameIn_of_node inTree kind
  · exact isNameIn_of_node (Rose.mem_subtrees_child inTree child) kind

end

/-! ## 5. What is asked about a line -/

/-- The line is a child of the element with this tag, which has a name. -/
structure Line.Under (ls : List Line) (l : Line) (t : Tag) : Prop where
  child : ∃ f inner, .element f t inner ∈ withinAll ls ∧ l ∈ inner
  named : t.name.text ≠ []

/-- What the host is asked about a line, by the part that the hovered node plays in it: about the tag
of the line, or about what the line says of the element whose child it is. The element is a native
one in either case, since the host knows no others. -/
inductive Line.Explains (ls : List Line) (l : Line) : Role → Inquiry → Prop
  | tag {f : Frame} {t : Tag} {role : Role} (row : l.row = .element f t)
      (here : role = .sigil ∨ role = .subject) (named : t.name.text ≠ [])
      (native : isNativeTag t.name.text = true) : Explains ls l role (.tag t.name)
  | «attribute» {f : Frame} {a : Attribute} {t : Tag} {role : Role}
      (row : l.row = .simple f (.attribute a)) (kind : a.isProperty = false)
      (here : role = .sigil ∨ role = .subject) (under : l.Under ls t)
      (native : isNativeTag t.name.text = true) :
      Explains ls l role (.attribute t.name a.binding)
  | property {f : Frame} {a : Attribute} {t : Tag} {role : Role}
      (row : l.row = .simple f (.attribute a)) (kind : a.isProperty = true)
      (here : role = .sigil ∨ role = .subject) (under : l.Under ls t)
      (native : isNativeTag t.name.text = true) :
      Explains ls l role (.property t.name a.binding)
  | trigger {f : Frame} {a : Attribute} {t : Tag} {dot event : Leaf}
      (row : l.row = .simple f (.attribute a)) (trigger : a.trigger = some (dot, event))
      (under : l.Under ls t) (native : isNativeTag t.name.text = true) :
      Explains ls l .trigger (.event t.name event)
  | event {f : Frame} {h : Handler} {t : Tag} {role : Role}
      (row : l.row = .simple f (.handler h)) (here : role = .sigil ∨ role = .subject)
      (under : l.Under ls t) (native : isNativeTag t.name.text = true) :
      Explains ls l role (.event t.name h.event)

/-- What the host is asked for behind the sigil of a line. Properties are those of native elements;
attributes and events are asked for under any name, and both by the same fragment. -/
inductive Line.Offers (ls : List Line) (l : Line) : Inquiry → Prop
  | tags {f : Frame} {t : Tag} (row : l.row = .element f t) : Offers ls l .tags
  | attributes {f : Frame} {a : Attribute} {t : Tag} (row : l.row = .simple f (.attribute a))
      (kind : a.isProperty = false) (under : l.Under ls t) : Offers ls l (.attributes t.name)
  | events {f : Frame} {h : Handler} {t : Tag} (row : l.row = .simple f (.handler h))
      (under : l.Under ls t) : Offers ls l (.attributes t.name)
  | properties {f : Frame} {a : Attribute} {t : Tag} (row : l.row = .simple f (.attribute a))
      (kind : a.isProperty = true) (under : l.Under ls t)
      (native : isNativeTag t.name.text = true) : Offers ls l (.properties t.name)

section

variable {ls : List Line} {l : Line} {s : Spot} {g : Fragment} {q : Inquiry} {role : Role}

/-- The name of the element around a spot is that of the one whose child the line is. -/
theorem exists_under {name : List Char} (whose : l.HasOwner none ls s.owner)
    (owner : s.ownerName? = some name) : ∃ t, l.Under ls t ∧ t.name.text = name := by
  obtain ⟨found, named⟩ := Option.filter_eq_some_iff.mp owner
  obtain ⟨t, is, rfl⟩ := Option.map_eq_some_iff.mp found
  rw [is] at whose
  cases whose with
  | child element mem => exact ⟨t, ⟨⟨_, _, element, mem⟩, by simpa using named⟩, rfl⟩

theorem exists_native_under {name : List Char} (whose : l.HasOwner none ls s.owner)
    (owner : s.ownerName?.filter isNativeTag = some name) :
    ∃ t, l.Under ls t ∧ isNativeTag t.name.text = true ∧ t.name.text = name := by
  obtain ⟨found, native⟩ := Option.filter_eq_some_iff.mp owner
  obtain ⟨t, under, rfl⟩ := exists_under whose found
  exact ⟨t, under, native, rfl⟩

/-- A hover asks the host on behalf of a word of the line, or of what triggers a property. -/
theorem Spot.cases_of_hover? (asks : s.hover? = some (.ask g)) :
    (s.label.role = .sigil ∨ s.label.role = .subject)
        ∧ s.row.subjectFragment? (s.ownerName?.filter isNativeTag) = some g
      ∨ s.label.role = .trigger
        ∧ s.row.triggerFragment? (s.ownerName?.filter isNativeTag) = some g := by
  unfold hover? at asks
  cases role : s.label.role <;> simp only [role] at asks <;> simp_all

section

variable (whose : l.HasOwner none ls s.owner)

include whose

theorem explains_of_subject (here : role = .sigil ∨ role = .subject)
    (asks : l.row.subjectFragment? (s.ownerName?.filter isNativeTag) = some g) :
    ∃ q, l.Explains ls role q ∧ g = q.fragment := by
  cases row : l.row with
  | element f t =>
    rw [row, Row.subjectFragment?] at asks
    split at asks
    · exact absurd asks (by simp)
    · next known =>
      obtain ⟨named, native⟩ : t.name.text ≠ [] ∧ isNativeTag t.name.text = true := by
        simpa using known
      exact ⟨.tag t.name, .tag row here named native, (Option.some.inj asks).symm⟩
  | simple f b =>
    cases b with
    | «attribute» a =>
      rw [row, Row.subjectFragment?] at asks
      obtain ⟨name, owner, is⟩ := Option.map_eq_some_iff.mp asks
      obtain ⟨t, under, native, rfl⟩ := exists_native_under whose owner
      cases kind : a.isProperty with
      | false =>
        rw [kind] at is
        exact ⟨.attribute t.name a.binding, .attribute row kind here under native, is.symm⟩
      | true =>
        rw [kind] at is
        exact ⟨.property t.name a.binding, .property row kind here under native, is.symm⟩
    | handler h =>
      rw [row, Row.subjectFragment?] at asks
      obtain ⟨name, owner, rfl⟩ := Option.map_eq_some_iff.mp asks
      obtain ⟨t, under, native, rfl⟩ := exists_native_under whose owner
      exact ⟨.event t.name h.event, .event row here under native, rfl⟩
    | _ => exact absurd asks (by simp [row, Row.subjectFragment?])

theorem explains_of_trigger
    (asks : l.row.triggerFragment? (s.ownerName?.filter isNativeTag) = some g) :
    ∃ q, l.Explains ls .trigger q ∧ g = q.fragment := by
  cases row : l.row with
  | element f t => exact absurd asks (by simp [row, Row.triggerFragment?])
  | simple f b =>
    cases b with
    | «attribute» a =>
      rw [row, Row.triggerFragment?] at asks
      obtain ⟨name, owner, is⟩ := Option.bind_eq_some_iff.mp asks
      obtain ⟨⟨dot, event⟩, trigger, rfl⟩ := Option.map_eq_some_iff.mp is
      obtain ⟨t, under, native, rfl⟩ := exists_native_under whose owner
      exact ⟨.event t.name event, .trigger row trigger under native, rfl⟩
    | _ => exact absurd asks (by simp [row, Row.triggerFragment?])

theorem offers_of_target {t : Target} (asks : l.row.target? s.ownerName? = some t) :
    ∃ q, l.Offers ls q ∧ t.fragment = q.fragment := by
  cases row : l.row with
  | element f tag =>
    rw [row, Row.target?] at asks
    obtain rfl := Option.some.inj asks
    exact ⟨.tags, .tags row, rfl⟩
  | simple f b =>
    cases b with
    | «attribute» a =>
      rw [row, Row.target?] at asks
      cases kind : a.isProperty with
      | false =>
        rw [kind, if_neg Bool.false_ne_true] at asks
        obtain ⟨name, owner, rfl⟩ := Option.map_eq_some_iff.mp asks
        obtain ⟨tag, under, rfl⟩ := exists_under whose owner
        exact ⟨.attributes tag.name, .attributes row kind under, rfl⟩
      | true =>
        rw [kind, if_pos rfl] at asks
        obtain ⟨name, owner, rfl⟩ := Option.map_eq_some_iff.mp asks
        obtain ⟨tag, under, native, rfl⟩ := exists_native_under whose owner
        exact ⟨.properties tag.name, .properties row kind under native, rfl⟩
    | handler h =>
      rw [row, Row.target?] at asks
      obtain ⟨name, owner, rfl⟩ := Option.map_eq_some_iff.mp asks
      obtain ⟨tag, under, rfl⟩ := exists_under whose owner
      exact ⟨.attributes tag.name, .events row under, rfl⟩
    | _ => exact absurd asks (by simp [row, Row.target?])

end

end

/-! ## 6. Files -/

/-- The fragment puts the inquiry: the names in it stand in the text, the tag has characters, and
the place is the cut between what it has in front of the mark and what it has behind. -/
structure Fragment.Puts (g : Fragment) (text : List Char) (q : Inquiry) : Prop where
  names : ∀ n ∈ q.names, n.IsNameIn text
  named : ∀ tag ∈ q.tag?, tag ≠ []
  language : g.language = q.language
  splits : g.Splits q.front q.back

/-- The spot under the cursor is a leaf of this line, and the cursor is on the line. -/
structure Spot.IsOn (s : Spot) (file : SourceFile) (p : Position) (l : Line) : Prop where
  chosen : file.spotAt? p = some s
  line : l ∈ Line.withinAll file.lines
  number : l.lineNumber = p.line
  row : s.row = l.row
  label : s.label ∈ l.labels
  leaf : s.label.isLeaf = true

section

variable {variant : Variant} {text : List Char} {p : Position} {s : Spot} {l : Line} {t : Tag}
  {q : Inquiry} {role : Role}

theorem Inquiry.puts_fragment (names : ∀ n ∈ q.names, n.IsNameIn text)
    (named : ∀ tag ∈ q.tag?, tag ≠ []) : q.fragment.Puts text q :=
  ⟨names, named, rfl, q.splits_fragment fun n hn => (names n hn).unbroken⟩

theorem isNameIn_of_under (under : l.Under (SourceFile.ofText variant text).lines t) :
    t.name.IsNameIn text := by
  obtain ⟨f, inner, element, -⟩ := under.child
  exact isNameIn_of_names element (List.mem_singleton_self _)

theorem puts_of_explains (hl : l ∈ Line.withinAll (SourceFile.ofText variant text).lines)
    (h : l.Explains (SourceFile.ofText variant text).lines role q) :
    q.fragment.Puts text q := by
  have both {t : Tag} {n : Leaf} (under : l.Under (SourceFile.ofText variant text).lines t)
      (hn : n ∈ l.row.names) : ∀ m ∈ [t.name, n], m.IsNameIn text :=
    List.forall_mem_cons.mpr
      ⟨isNameIn_of_under under, List.forall_mem_singleton.mpr (isNameIn_of_names hl hn)⟩
  cases h with
  | @tag f t _ row here named native =>
    have own : t.name.IsNameIn text := isNameIn_of_names hl (by simp [row, Row.names])
    exact Inquiry.puts_fragment (List.forall_mem_singleton.mpr own)
      (by simpa [Inquiry.tag?] using named)
  | «attribute» row kind here under native =>
    exact Inquiry.puts_fragment (both under (by simp [row, Row.names]))
      (by simpa [Inquiry.tag?] using under.named)
  | property row kind here under native =>
    exact Inquiry.puts_fragment (both under (by simp [row, Row.names]))
      (by simpa [Inquiry.tag?] using lowercase_ne_nil under.named)
  | trigger row trigger under native =>
    exact Inquiry.puts_fragment (both under (by simp [row, Row.names, trigger]))
      (by simpa [Inquiry.tag?] using under.named)
  | event row here under native =>
    exact Inquiry.puts_fragment (both under (by simp [row, Row.names]))
      (by simpa [Inquiry.tag?] using under.named)

theorem puts_of_offers (h : l.Offers (SourceFile.ofText variant text).lines q) :
    q.fragment.Puts text q := by
  have one {t : Tag} (under : l.Under (SourceFile.ofText variant text).lines t) :
      ∀ m ∈ [t.name], m.IsNameIn text :=
    List.forall_mem_singleton.mpr (isNameIn_of_under under)
  cases h with
  | tags => exact Inquiry.puts_fragment (by simp [Inquiry.names]) (by simp [Inquiry.tag?])
  | attributes row kind under =>
    exact Inquiry.puts_fragment (one under) (by simpa [Inquiry.tag?] using under.named)
  | events row under =>
    exact Inquiry.puts_fragment (one under) (by simpa [Inquiry.tag?] using under.named)
  | properties row kind under native =>
    exact Inquiry.puts_fragment (one under)
      (by simpa [Inquiry.tag?] using lowercase_ne_nil under.named)

/-- What plays more than a part is on the line of the cursor, and comes with whose line that is. -/
theorem exists_isOn (chosen : (SourceFile.ofText variant text).spotAt? p = some s)
    (role : s.label.role ≠ .part) : ∃ l, s.IsOn (SourceFile.ofText variant text) p l
      ∧ l.HasOwner none (SourceFile.ofText variant text).lines s.owner := by
  have leaf := SourceFile.isLeaf_of_role chosen role
  obtain ⟨-, l, hl, number, row, label, whose⟩ := exists_line_of_spotAt? chosen leaf
  exact ⟨l, ⟨chosen, hl, number, row, label, leaf⟩, whose⟩

end

/-- The fragments that the host is given. A hover asks about the word under the cursor, and a
completion for what may stand behind the sigil there. Whichever it is, the names in the fragment are
pieces of the text, each on one line and without space at its ends; the tag is not empty, and is that
of the element whose child the line is, or of the line. The place is behind what is asked about, and
there only. -/
theorem fragment_places (variant : Variant) (text : List Char) (p : Position) :
    let file := SourceFile.ofText variant text
    (∀ g, file.hoverAt? p = some (.ask g) → ∃ (s : Spot) (l : Line) (q : Inquiry), s.IsOn file p l
        ∧ l.Explains file.lines s.label.role q ∧ g.Puts text q)
      ∧ ∀ t, file.targetAt? p = some t → ∃ (s : Spot) (l : Line) (q : Inquiry), s.IsOn file p l
        ∧ s.label.role = .sigil ∧ l.Offers file.lines q ∧ t.fragment.Puts text q := by
  intro file
  constructor
  · intro g asks
    obtain ⟨s, chosen, asks⟩ := Option.bind_eq_some_iff.mp asks
    rcases Spot.cases_of_hover? asks with ⟨here, asks⟩ | ⟨here, asks⟩
    · obtain ⟨l, on, whose⟩ := exists_isOn chosen (by rcases here with is | is <;> simp [is])
      rw [on.row] at asks
      obtain ⟨q, explains, rfl⟩ := explains_of_subject whose here asks
      exact ⟨s, l, q, on, explains, puts_of_explains on.line explains⟩
    · obtain ⟨l, on, whose⟩ := exists_isOn chosen (by simp [here])
      rw [on.row] at asks
      obtain ⟨q, explains, rfl⟩ := explains_of_trigger whose asks
      exact ⟨s, l, q, on, here ▸ explains, puts_of_explains on.line explains⟩
  · intro t asks
    obtain ⟨s, chosen, sigil, asks⟩ := SourceFile.spot_of_targetAt? asks
    obtain ⟨l, on, whose⟩ := exists_isOn chosen (by simp [sigil])
    rw [on.row] at asks
    obtain ⟨q, offers, fragment⟩ := offers_of_target whose asks
    exact ⟨s, l, q, on, sigil, offers, fragment ▸ puts_of_offers offers⟩

/-- The lower case of the tag is longer than the tag, and the place is still behind the name. -/
example : (SourceFile.ofText .html ">a\u0130\n %b =c".toList).hoverAt? ⟨1, 3⟩
    = some (.ask ⟨.ts, "(null as HTMLElementTagNameMap['ai\u0307']).b".toList, ⟨0, 40⟩⟩) := by
  decide +kernel

end OffsideMarkup
