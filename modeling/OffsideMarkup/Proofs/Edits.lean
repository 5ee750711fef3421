/-
OffsideMarkup.Proofs.Edits — edits, with what could go wrong in them.

`Document.update` is total: it cuts a text at any two numbers, it works out the lines of a text when
it needs them, and texts are as long as they are. Whoever keeps a text in memory has none of these
comforts. A cut inside a character, in the wrong order or behind the end of the text is refused; the
table of lines is kept beside the text, so it could be that of an older text; and the length in the
table is a word, so there is no table of a text that is too long. `Document.update?` is the update
in these terms: it gives no document if a single cut is refused or a single change leaves a text
without a table, and each change looks up its ends in the table that the change before has left.

* `change?_of_lines` — with the lines of its own text a document refuses no cut, wherever the ends
  are said to be. Only the length of what comes out can be too much.
* `update?_of_lines` — so an update comes about, as `Document.update`, just when no change leaves a
  text that is too long. A text that is too long for a moment is enough to fail, also if the next
  change makes it short again.
* `update_total` — for documents that were created and updated any number of times.

That the ends fall between characters is a matter of the table: each of its lines starts and stops
there (`LineStarts.split_of_line?`), and a column leads from the start of a line over whole
characters.
-/
import OffsideMarkup.Proofs.BuilderTotal
import OffsideMarkup.Proofs.LineTable

namespace OffsideMarkup

/-! ## 1. Updates that can fail -/

/-- A text with a span replaced. -/
def splice? (s : Span) (new text : List Char) : Option (List Char) :=
  if s.fitsIn text then some (splice s.start s.stop new text) else none

/-- The table of lines of a text whose length is a word. -/
def LineStarts.ofText? (text : List Char) : Option LineStarts :=
  if byteLength text < wordBound then some (.ofText text) else none

/-- The texts that changes leave, one after the other. -/
def Change.texts (text : List Char) : List Change → List (List Char)
  | [] => []
  | c :: changes => c.apply text :: texts (c.apply text) changes

namespace Document

def create? (uri language : String) (version : Int) (text : List Char) : Option Document := do
  let lines ← LineStarts.ofText? text
  return ⟨uri, language, version, text, lines, .ofText .html text⟩

/-- The byte at a position, by the table of lines. -/
def offset? (d : Document) (p : Position) : Option Nat :=
  match d.lines.line? p.line with
  | none => some (byteLength d.text)
  | some line => do
    let content ← slice? line d.text
    return line.start + bytesToColumn p.column (dropBreak content)

/-- The text after a change. -/
def changed? (d : Document) (c : Change) : Option (List Char) :=
  match c.region with
  | none => some c.text
  | some r => do
    let a ← d.offset? r.start
    let b ← d.offset? r.stop
    splice? ⟨min a b, max a b⟩ c.text d.text

/-- Makes a change. The text is not read again yet. -/
def change? (d : Document) (c : Change) : Option Document := do
  let text ← d.changed? c
  let lines ← LineStarts.ofText? text
  return { d with text := text, lines := lines }

/-- Makes changes, one after the other, and reads the text that they leave. -/
def update? (d : Document) (changes : List Change) (version : Int) : Option Document := do
  let d ← changes.foldlM change? d
  return { d with version := version, tree := .ofText d.tree.variant d.text }

end Document

/-! ## 2. Ends of changes -/

/-- A line of the table is a stretch of the text: a stretch inside a line, with the break behind it
if there is one. -/
theorem LineStarts.split_of_line? {text : List Char} {n : Nat} {line : Span}
    (h : (ofText text).line? n = some line) :
    ∃ before inner brk after, text = before ++ (inner ++ brk) ++ after
      ∧ Unbroken inner ∧ (∀ c ∈ brk, isLineBreak c = true)
      ∧ line = ⟨byteLength before, byteLength before + byteLength (inner ++ brk)⟩ := by
  obtain ⟨start, found, rest⟩ := Option.bind_eq_some_iff.mp h
  obtain ⟨before, behind, rfl, whole, rfl, count⟩ :
      ∃ before behind, text = before ++ behind ∧ Whole before behind ∧ start = byteLength before
        ∧ (startsBehind 0 before).length = n := by
    cases n with
    | zero => exact ⟨[], text, rfl, whole_nil text, (Option.some.inj found).symm, rfl⟩
    | succ n =>
      obtain ⟨before, behind, split, whole, start, count⟩ := exists_split_of_start 0 found
      exact ⟨before, behind, split, whole, start.trans (Nat.zero_add _), count⟩
  obtain ⟨inner, brk, after, rfl, inside, breaks, next⟩ :=
    nextBreak_cases (byteLength before) behind
  refine ⟨before, inner, brk, after, (List.append_assoc ..).symm, inside, breaks, ?_⟩
  have further : (ofText (before ++ (inner ++ brk ++ after))).starts[n + 1]?
      = (startsBehind (byteLength before) (inner ++ brk ++ after)).head? := by
    rw [starts_ofText whole, List.getElem?_append_right (by simp [count]), List.head?_eq_getElem?]
    simp [count]
  rw [further] at rest
  refine (Option.some.inj rest).symm.trans ?_
  rw [← next, ← byteLength_append]
  rfl

/-- A column leads over whole characters. -/
theorem exists_split_of_bytesToColumn (column : Nat) (cs : List Char) :
    ∃ front back, cs = front ++ back ∧ bytesToColumn column cs = byteLength front := by
  induction cs generalizing column with
  | nil => exact ⟨[], [], rfl, rfl⟩
  | cons c cs ih =>
    rw [bytesToColumn]
    split
    · exact ⟨[], c :: cs, rfl, rfl⟩
    · obtain ⟨front, back, rfl, bytes⟩ := ih (column - unitWidth c)
      exact ⟨c :: front, back, rfl, by rw [bytes, byteLength_cons]⟩

theorem byteLength_boundary (text : List Char) : isBoundary (byteLength text) text = true :=
  isBoundary_iff.mpr ⟨text, [], (List.append_nil text).symm, rfl⟩

/-- With the lines of the text every position has a byte, and it stands between characters. -/
theorem Document.offset?_of_lines {d : Document} (lines : d.lines = .ofText d.text) (p : Position) :
    d.offset? p = some (offsetIn d.text d.lines p)
      ∧ isBoundary (offsetIn d.text d.lines p) d.text = true := by
  rw [offset?, offsetIn]
  cases found : d.lines.line? p.line with
  | none => exact ⟨rfl, byteLength_boundary d.text⟩
  | some line =>
    dsimp only
    rw [lines] at found
    obtain ⟨before, inner, brk, after, split, inside, breaks, rfl⟩ :=
      LineStarts.split_of_line? found
    have content := dropBreak_append inside breaks
    rw [split, slice?_of_split, sliceBytes_append, content]
    refine ⟨congrArg (fun cs => some (byteLength before + bytesToColumn p.column cs)) content, ?_⟩
    obtain ⟨front, back, rfl, bytes⟩ := exists_split_of_bytesToColumn p.column inner
    refine isBoundary_iff.mpr ⟨before ++ front, back ++ brk ++ after, ?_, ?_⟩
    · simp only [List.append_assoc]
    · rw [bytes]
      exact (byteLength_append ..).symm

/-! ## 3. Updates -/

section
variable (text : List Char)

theorem Change.texts_append (changes later : List Change) :
    texts text (changes ++ later)
      = texts text changes ++ texts (changes.foldl (fun text c => c.apply text) text) later := by
  induction changes generalizing text with
  | nil => rfl
  | cons c changes ih =>
    rw [List.cons_append, texts, texts, ih, List.cons_append]
    rfl

/-- The last text is one of those that changes leave, or there are no changes. -/
theorem Change.foldl_mem_texts (changes : List Change) :
    changes.foldl (fun text c => c.apply text) text ∈ text :: texts text changes := by
  induction changes generalizing text with
  | nil => exact List.mem_singleton_self _
  | cons c changes ih => exact List.mem_cons_of_mem _ (ih (c.apply text))

end

namespace Document

variable {d : Document}

/-- A document with the lines of its text refuses no cut. -/
theorem changed?_of_lines (lines : d.lines = .ofText d.text) (c : Change) :
    d.changed? c = some (c.apply d.text) := by
  rw [changed?, Change.apply]
  cases c.region with
  | none => rfl
  | some r =>
    dsimp only
    obtain ⟨start, startBoundary⟩ := offset?_of_lines lines r.start
    obtain ⟨stop, stopBoundary⟩ := offset?_of_lines lines r.stop
    rw [start, stop, ← lines]
    generalize offsetIn d.text d.lines r.start = a at startBoundary ⊢
    generalize offsetIn d.text d.lines r.stop = b at stopBoundary ⊢
    have fits : Span.fitsIn ⟨min a b, max a b⟩ d.text = true := by
      rcases Nat.le_total a b with le | le
      · simp [Span.fitsIn, le, startBoundary, stopBoundary]
      · simp [Span.fitsIn, le, startBoundary, stopBoundary]
    show splice? ⟨min a b, max a b⟩ c.text d.text = _
    rw [splice?, if_pos fits]

/-- It makes a change just if the text that comes out is not too long. -/
theorem change?_of_lines (lines : d.lines = .ofText d.text) (c : Change) :
    d.change? c = if byteLength (c.apply d.text) < wordBound
      then some { d with text := c.apply d.text, lines := .ofText (c.apply d.text) } else none := by
  rw [change?, changed?_of_lines lines, Option.bind_eq_bind, Option.bind_some, LineStarts.ofText?]
  split <;> rfl

/-- One change after the other is made just if none of the texts that come out is too long. -/
theorem changes?_of_lines (lines : d.lines = .ofText d.text) (changes : List Change) :
    changes.foldlM change? d =
      if ∀ text ∈ Change.texts d.text changes, byteLength text < wordBound
      then some { d with
        text := changes.foldl (fun text c => c.apply text) d.text
        lines := .ofText (changes.foldl (fun text c => c.apply text) d.text) }
      else none := by
  induction changes generalizing d with
  | nil =>
    rw [List.foldlM_nil, List.foldl_nil, ← lines, if_pos (by simp [Change.texts])]
    rfl
  | cons c changes ih =>
    rw [List.foldlM_cons, change?_of_lines lines, List.foldl_cons]
    by_cases short : byteLength (c.apply d.text) < wordBound
    · rw [if_pos short]
      refine (ih rfl).trans (if_congr ?_ rfl rfl)
      rw [Change.texts, List.forall_mem_cons]
      exact (and_iff_right short).symm
    · rw [if_neg short, if_neg fun all => short (all _ List.mem_cons_self)]
      rfl

theorem update?_of_lines (lines : d.lines = .ofText d.text) (changes : List Change)
    (version : Int) :
    d.update? changes version = if ∀ text ∈ Change.texts d.text changes, byteLength text < wordBound
      then some (d.update changes version) else none := by
  rw [update?, changes?_of_lines lines]
  split <;> rfl

/-- A document as it is when its text has been read. -/
structure UpToDate (d : Document) : Prop where
  lines : d.lines = .ofText d.text
  tree : d.tree = .ofText .html d.text

theorem upToDate_create (uri language : String) (version : Int) (text : List Char) :
    (create uri language version text).UpToDate := ⟨rfl, rfl⟩

theorem create?_of_short {uri language : String} {version : Int} {text : List Char}
    (short : byteLength text < wordBound) :
    create? uri language version text = some (create uri language version text) := by
  rw [create?, LineStarts.ofText?, if_pos short]
  rfl

theorem UpToDate.update (h : d.UpToDate) (changes : List Change) (version : Int) :
    (d.update changes version).UpToDate := by
  refine ⟨rfl, ?_⟩
  have variant : d.tree.variant = .html := by rw [h.tree]; rfl
  show SourceFile.ofText d.tree.variant _ = _
  rw [variant]
  rfl

/-- One update after the other. -/
def updates (d : Document) (us : List (List Change × Int)) : Document :=
  us.foldl (fun d u => d.update u.1 u.2) d

/-- One update after the other, each of which may fail. -/
def updates? (d : Document) (us : List (List Change × Int)) : Option Document :=
  us.foldlM (fun d u => d.update? u.1 u.2) d

theorem UpToDate.updates (h : d.UpToDate) (us : List (List Change × Int)) :
    (d.updates us).UpToDate ∧ (d.updates us).version = (us.getLast?.map (·.2)).getD d.version := by
  induction us generalizing d with
  | nil => exact ⟨h, rfl⟩
  | cons u us ih =>
    obtain ⟨upToDate, version⟩ := ih (h.update u.1 u.2)
    refine ⟨upToDate, version.trans ?_⟩
    cases us with
    | nil => rfl
    | cons v vs => rw [List.getLast?_cons_cons, List.getLast?_cons]; rfl

theorem text_updates (d : Document) (us : List (List Change × Int)) :
    (d.updates us).text = (us.flatMap (·.1)).foldl (fun text c => c.apply text) d.text := by
  induction us generalizing d with
  | nil => rfl
  | cons u us ih =>
    rw [List.flatMap_cons, List.foldl_append]
    exact ih (d.update u.1 u.2)

/-- Updates come about if no change of theirs leaves a text that is too long. -/
theorem UpToDate.updates? (h : d.UpToDate) {us : List (List Change × Int)}
    (short : ∀ text ∈ Change.texts d.text (us.flatMap (·.1)), byteLength text < wordBound) :
    d.updates? us = some (d.updates us) := by
  induction us generalizing d with
  | nil => rfl
  | cons u us ih =>
    rw [List.flatMap_cons, Change.texts_append, List.forall_mem_append] at short
    rw [Document.updates?, List.foldlM_cons, update?_of_lines h.lines, if_pos short.1]
    exact ih (h.update u.1 u.2) short.2

end Document

/-! ## 4. Changes between two cuts -/

/-- A byte at which a text can be cut: it stands between two characters, and not inside a line
break. -/
def IsCut (n : Nat) (text : List Char) : Prop :=
  isBoundary n text = true ∧ Whole (takeBytes n text) (dropBytes n text)

/-- A cut has a position, and the position leads back to the cut. -/
theorem position?_of_isCut {n : Nat} {text : List Char} (h : IsCut n text) :
    ∃ p, position? text (.ofText text) n = some p ∧ offsetIn text (.ofText text) p = n := by
  obtain ⟨boundary, whole⟩ := h
  obtain ⟨before, after, rfl, rfl⟩ := isBoundary_iff.mp boundary
  rw [takeBytes_byteLength, dropBytes_byteLength] at whole
  exact ⟨_, position?_byteLength whole, offsetIn_through whole⟩

/-- A change between the positions of two cuts replaces what stands between them. -/
theorem apply_of_isCut {a b : Nat} {text : List Char} (le : a ≤ b) (first : IsCut a text)
    (second : IsCut b text) :
    ∃ p q, position? text (.ofText text) a = some p ∧ position? text (.ofText text) b = some q
      ∧ ∀ new, Change.apply ⟨some ⟨p, q⟩, new⟩ text
          = takeBytes a text ++ new ++ dropBytes b text := by
  obtain ⟨p, start, back⟩ := position?_of_isCut first
  obtain ⟨q, stop, back'⟩ := position?_of_isCut second
  refine ⟨p, q, start, stop, fun new => ?_⟩
  simp only [Change.apply, back, back', Nat.min_eq_left le, Nat.max_eq_right le, splice]

/-! ## 5. Documents under edits -/

/-- A document is created, and updated any number of times. If neither the text that it is created
with nor one that a single change leaves is too long, nothing fails. Afterwards the lines and the
tree are those of the text, the tree holds the text, and a text that has not too many nodes was read
without a violation. From then on an update fails only if a change of it leaves a text that is too
long. In a list of changes, one between the positions that the text left by those before it gives to
two cuts replaces what stands between the cuts, and those behind it are made on the text that it
leaves. -/
theorem update_total (uri language : String) (version : Int) (text : List Char)
    (us : List (List Change × Int))
    (short : ∀ t ∈ text :: Change.texts text (us.flatMap (·.1)), byteLength t < wordBound) :
    ∃ d₀ d, Document.create? uri language version text = some d₀ ∧ d₀.updates? us = some d
      ∧ d.lines = .ofText d.text ∧ d.tree = .ofText .html d.text ∧ d.tree.source = d.text
      ∧ d.version = (us.getLast?.map (·.2)).getD version
      ∧ (d.tree.root.size ≤ wordBound → ∃ b,
          build d.text = Part.some (.ok (Node.rootAt 0 d.tree.root, b))
            ∧ b.nodes.values = d.tree.root.entries 0 none ∧ b.findings = d.tree.diagnostics)
      ∧ (∀ changes v, (d.update? changes v).isSome = true
          ↔ ∀ t ∈ Change.texts d.text changes, byteLength t < wordBound)
      ∧ ∀ changes later v, (∀ t ∈ Change.texts d.text changes, byteLength t < wordBound) →
        ∃ m, d.update? changes v = some m
          ∧ ∀ a b new, a ≤ b → IsCut a m.text → IsCut b m.text →
            ∃ p q, m.position? a = some p ∧ m.position? b = some q
              ∧ let left := takeBytes a m.text ++ new ++ dropBytes b m.text
                (∀ t ∈ left :: Change.texts left later, byteLength t < wordBound) →
                  (d.update? (changes ++ ⟨some ⟨p, q⟩, new⟩ :: later) v).map Document.text
                    = some (later.foldl (fun text c => c.apply text) left) := by
  have created : Document.create? uri language version text = some _ :=
    Document.create?_of_short (short text List.mem_cons_self)
  have fresh := Document.upToDate_create uri language version text
  have made := fresh.updates? fun t left => short t (List.mem_cons_of_mem _ left)
  obtain ⟨upToDate, last⟩ := fresh.updates us
  have words : byteLength ((Document.create uri language version text).updates us).text
      < wordBound := by
    rw [Document.text_updates]
    exact short _ (Change.foldl_mem_texts text _)
  generalize (Document.create uri language version text).updates us = d at *
  refine ⟨_, d, created, made, upToDate.lines, upToDate.tree, ?_, last, fun few => ?_,
    fun changes v => ?_, fun changes later v before => ?_⟩
  · rw [upToDate.tree]
    exact source_root .html _
  · rw [upToDate.tree] at few ⊢
    exact exists_build .html _ words few
  · rw [Document.update?_of_lines upToDate.lines]
    by_cases all : ∀ t ∈ Change.texts d.text changes, byteLength t < wordBound
    · rw [if_pos all]
      exact iff_of_true rfl all
    · rw [if_neg all]
      exact iff_of_false Bool.false_ne_true all
  · refine ⟨_, (Document.update?_of_lines upToDate.lines changes v).trans (if_pos before), ?_⟩
    intro a b new le first second
    obtain ⟨p, q, start, stop, apply⟩ := apply_of_isCut le first second
    refine ⟨p, q, start, stop, fun behind => ?_⟩
    have all : ∀ t ∈ Change.texts d.text (changes ++ ⟨some ⟨p, q⟩, new⟩ :: later),
        byteLength t < wordBound := by
      rw [Change.texts_append, List.forall_mem_append]
      refine ⟨before, ?_⟩
      rw [Change.texts]
      exact (apply new).symm ▸ behind
    rw [Document.update?_of_lines upToDate.lines, if_pos all, Option.map_some, ← apply new,
      ← List.foldl_cons]
    exact congrArg some List.foldl_append

/-- A change whose ends come in the wrong order, one of them inside a surrogate pair, puts a line
feed behind a carriage return. On what it leaves, a change between cuts of the second line. -/
theorem update_total_of_merged_break :
    (∀ t ∈ ['>', '\r', '😀', 'b'] :: Change.texts ['>', '\r', '😀', 'b']
        [⟨some ⟨⟨1, 1⟩, ⟨1, 0⟩⟩, ['\n', 'c']⟩], byteLength t < wordBound)
      ∧ 3 ≤ 4 ∧ IsCut 3 ['>', '\r', '\n', 'c', 'b'] ∧ IsCut 4 ['>', '\r', '\n', 'c', 'b']
      ∧ ∃ d₀ d p q, Document.create? "a" "b" 1 ['>', '\r', '😀', 'b'] = some d₀
          ∧ d₀.updates? [([⟨some ⟨⟨1, 1⟩, ⟨1, 0⟩⟩, ['\n', 'c']⟩], 2)] = some d
          ∧ d.position? 3 = some p ∧ d.position? 4 = some q
          ∧ (d.update? [⟨some ⟨p, q⟩, ['x']⟩] 3).map Document.text
            = some ['>', '\r', '\n', 'x', 'b'] := by
  have short : ∀ t ∈ ['>', '\r', '😀', 'b'] :: Change.texts ['>', '\r', '😀', 'b']
      [⟨some ⟨⟨1, 1⟩, ⟨1, 0⟩⟩, ['\n', 'c']⟩], byteLength t < wordBound := by decide
  have first : IsCut 3 ['>', '\r', '\n', 'c', 'b'] := ⟨by decide, by unfold Whole; decide⟩
  have second : IsCut 4 ['>', '\r', '\n', 'c', 'b'] := ⟨by decide, by unfold Whole; decide⟩
  obtain ⟨d₀, d, created, made, -, -, -, -, -, -, edits⟩ := update_total "a" "b" 1
    ['>', '\r', '😀', 'b'] [([⟨some ⟨⟨1, 1⟩, ⟨1, 0⟩⟩, ['\n', 'c']⟩], 2)] short
  have fresh := Document.upToDate_create "a" "b" 1 ['>', '\r', '😀', 'b']
  have updated : (Document.create "a" "b" 1 ['>', '\r', '😀', 'b']).updates?
      [([⟨some ⟨⟨1, 1⟩, ⟨1, 0⟩⟩, ['\n', 'c']⟩], 2)] = some _ :=
    fresh.updates? (List.forall_mem_cons.mp short).2
  obtain rfl := Option.some.inj ((Document.create?_of_short (short _ List.mem_cons_self)).symm.trans
    created)
  obtain rfl := Option.some.inj (updated.symm.trans made)
  obtain ⟨m, now, cuts⟩ := edits [] [] 3 (by simp [Change.texts])
  obtain rfl := Option.some.inj (((Document.update?_of_lines (fresh.updates _).1.lines [] 3).trans
    (if_pos (by simp [Change.texts]))).symm.trans now)
  obtain ⟨p, q, start, stop, text⟩ := cuts 3 4 ['x'] (by decide) first second
  exact ⟨short, by decide, first, second, _, _, p, q, created, made, start, stop, text (by decide)⟩

/-- The text that an editor sends can be of any length. With 2³² letters there is no table of its
lines, and the update that puts it in place fails. -/
theorem update_refuses_long_text :
    ∃ d, Document.create? "a" "b" 1 [] = some d
      ∧ d.update? [⟨none, List.replicate wordBound 'a'⟩] 2 = none := by
  have fresh := Document.upToDate_create "a" "b" 1 []
  refine ⟨.create "a" "b" 1 [], rfl, ?_⟩
  rw [Document.update?_of_lines fresh.lines, if_neg]
  intro all
  have long := all (List.replicate wordBound 'a') List.mem_cons_self
  rw [byteLength_replicate, show ('a').utf8Size = 1 from rfl, Nat.mul_one] at long
  exact Nat.lt_irrefl _ long

end OffsideMarkup
