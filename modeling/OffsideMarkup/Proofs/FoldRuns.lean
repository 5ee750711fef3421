/-
OffsideMarkup.Proofs.FoldRuns — which stretches of lines fold.

`Line.folds` finds the runs of a block with an open run that it carries from line to line, in
between the folds of what is nested in those lines. What comes out is simple to say: a fold for each
element with lines under it, and a fold for each maximal run of three or more comments, or of three
or more lines of block text, among the lines of one block.

* `foldKindOf?` — what a line folds as with its neighbours, by the first of its characters.
* `runFolds_eq` — the open run is the last group of lines with one key, so the runs of a block are
  the groups that `List.splitBy` makes of its lines.
* `perm_blockFolds` — the folds of a file are those of the elements and the runs of the blocks.
* `nodup_folds` — no two folds start on one line: a line starts the fold of an element or belongs to
  a run, and it stands in one block.
* `mem_runFolds` — the groups that fold are the maximal runs.

A run is as long as the difference of its lines says, for the lines of a run have nothing under
them, so one follows the other in the text (`LineOrder`).
-/
import Mathlib.Data.List.Flatten
import Mathlib.Data.List.Perm.Basic
import Mathlib.Data.List.SplitBy
import Mathlib.Order.Bounds.Defs
import OffsideMarkup.Proofs.FoldMemo
import OffsideMarkup.Proofs.LineOrder

namespace OffsideMarkup

/-! ## 1. Lines that fold together -/

/-- What a line folds as if its content starts with a character: a bar opens a line of block text,
any other sigil that opens a line keeps it from folding, and all that is left are comments, among
them lines that could not be read. -/
def foldKindBy? (c : Char) : Option FoldKind :=
  if isLineBreak c || ['>', '#', '%', '@', '.', '+', '-'].contains c then none
  else if c = '|' then some .text
  else some .comment

/-- What a line folds as if there are others like it next to it, by its characters. -/
def foldKindOf? (line : List Char) : Option FoldKind :=
  (line.dropWhile isInlineSpace).head?.bind foldKindBy?

/-- What a line folds as, by what was read of it. -/
def Line.foldKind? (l : Line) : Option FoldKind := l.runKey?.bind RunKey.foldKind?

/-- What a run of lines that declare this is keyed by. -/
def Body.runKey? : Body → Option RunKey
  | .comment (some words) => if words.source.isEmpty then none else some .comment
  | .text sigil _ => some (.text sigil.kind)
  | _ => none

theorem Line.runKey?_simple (f : Frame) (b : Body) : (Line.simple f b).runKey? = b.runKey? := by
  cases b with
  | comment words => cases words <;> rfl
  | _ => rfl

/-- What a line folds as that opens with a token of a kind, unless it is empty. -/
def Kind.foldKind? : Kind → Option FoldKind
  | .greaterThan | .hashSign | .percentSign | .atSign | .dot | .plus | .minus => none
  | .bar => some .text
  | _ => some .comment

theorem Kind.foldKind?_sigil {c : Char} {k : Kind} (h : sigilKind? c = some k) :
    k.foldKind? = foldKindBy? c := by
  have all : ∀ s ∈ sigils, s.2.foldKind? = foldKindBy? s.1 := by decide
  exact all (c, k) (mem_sigils h)

namespace Reader

def Content.foldKind? : Content → Option FoldKind
  | .element _ => none
  | .simple body => body.runKey?.bind RunKey.foldKind?

theorem foldKind?_content_of_comment {stop t : Token} (kind : t.kind = .comment) (ts : List Token) :
    (content stop (t :: ts)).value.foldKind?
      = if t.source.isEmpty then none else some .comment := by
  simp only [content, kind]
  show (if t.source.isEmpty then none else some RunKey.comment).bind RunKey.foldKind? = _
  split <;> rfl

/-- What opens with a sigil folds as the sigil says, also if the sigil opens no line. -/
theorem foldKind?_content {stop t : Token} (other : t.kind ≠ .comment) (text : t.source ≠ [])
    (ts : List Token) : (content stop (t :: ts)).value.foldKind? = t.kind.foldKind? := by
  have kept : (literal .empty stop (t :: ts)).value.source.isEmpty = false := by
    rw [literal_of_content rfl]
    simp [Leaf.literal, text]
  have unread : (Content.simple (.comment (some (literal .empty stop (t :: ts)).value))).foldKind?
      = some .comment := by
    rw [Content.foldKind?, Body.runKey?, kept]
    rfl
  cases kind : t.kind <;> simp only [content, kind]
  case comment => exact absurd kind other
  case dot => show (RunKey.text t.kind).foldKind? = _; rw [kind]; rfl
  case bar => show (RunKey.text t.kind).foldKind? = _; rw [kind]; rfl
  all_goals first | rfl | exact unread

end Reader

theorem foldKind?_of_row {l : Line} {tl : TokenLine} (row : l.row = Row.ofTokenLine tl) :
    l.foldKind? = (Reader.content tl.stop tl.body).value.foldKind? := by
  rw [Row.ofTokenLine] at row
  cases content : (Reader.content tl.stop tl.body).value <;> rw [content] at row <;> cases l
  case element.element => rfl
  case simple.simple body f b =>
    obtain ⟨-, rfl⟩ : _ ∧ b = body := by simpa [Line.row] using row
    rw [Line.foldKind?, Line.runKey?_simple, Reader.Content.foldKind?]
  all_goals exact absurd row (by simp [Line.row])

/-- A comment starts with none of the sigils. -/
theorem foldKindBy?_of_plain {c : Char} (plain : sigilKind? c = none) :
    foldKindBy? c = if isLineBreak c then none else some .comment := by
  have sigils : ['|', '>', '#', '%', '@', '.', '+', '-'].all (sigilKind? · |>.isSome) := by decide
  have sigil (mem : c ∈ ['|', '>', '#', '%', '@', '.', '+', '-']) : False := by
    have found := List.all_eq_true.mp sigils c mem
    rw [plain] at found
    exact absurd found (by decide)
  have bar : c ≠ '|' := fun same => sigil (same ▸ List.mem_cons_self)
  have other : ['>', '#', '%', '@', '.', '+', '-'].contains c = false := by
    rw [← Bool.not_eq_true, List.contains_iff_mem]
    exact fun mem => sigil (List.mem_cons_of_mem _ mem)
  rw [foldKindBy?, other, Bool.or_false, if_neg bar]

/-- The first character of the content says what a line folds as. -/
theorem Opens.foldKind? {cs : List Char} {stop : Token} {body : List Token} (h : Opens cs body) :
    (Reader.content stop body).value.foldKind? = cs.head?.bind foldKindBy? := by
  cases h with
  | nothing => rfl
  | @comment c cs t kind plain source =>
    have blank : t.source.isEmpty = isLineBreak c := by
      rw [source]
      cases brk : isLineBreak c <;> simp [brk]
    rw [Reader.foldKind?_content_of_comment kind, blank, ← foldKindBy?_of_plain plain]
    rfl
  | @sigil c cs t ts kind source =>
    have plain := (sigil_is_content kind).2.2.2.2.2.1
    rw [Reader.foldKind?_content plain (by simp [source]), Kind.foldKind?_sigil kind]
    rfl

/-- What is left of a line behind the space it starts with. -/
theorem Scanner.ReadsLine.dropWhile_source {p e : Scanner} {l : TokenLine} (h : p.ReadsLine l e) :
    (l.source.dropWhile isInlineSpace).head? = (p.rest.dropWhile isInlineSpace).head? := by
  have solid := solid_dropWhile p.rest
  rw [← h.head?_content] at solid ⊢
  rw [TokenLine.source, TokenLine.front, List.flatMap_append, h.source_indent, List.append_assoc,
    (takeWhile_append_solid (inlineSpace_takeWhile p.rest) solid).2]

/-- A line of a file folds as what its characters say. -/
theorem foldKind?_of_mem {variant : Variant} {text : List Char} {l : Line}
    (hl : l ∈ Line.withinAll (SourceFile.ofText variant text).lines) :
    l.foldKind? = (physicalLines text)[l.lineNumber]?.bind foldKindOf? := by
  obtain ⟨tl, at_k, row⟩ := exists_tokenLine hl
  obtain ⟨q, e, line, -⟩ := exists_readsLine at_k
  rw [foldKind?_of_row row, line.opensBody.foldKind?, physicalLine_of_tokenLine at_k,
    Option.bind_some, foldKindOf?, line.dropWhile_source]

/-! ## 2. The open run -/

/-- Two lines have one key, or none has one. -/
def Line.likeKeyed (l m : Line) : Bool := decide (l.runKey? = m.runKey?)

/-- What is open behind lines that are alike: a run of all of them, if they have a key. -/
def Run.ofLines : List Line → Option Run
  | [] => none
  | l :: ls =>
    l.runKey?.map fun key => ⟨key, l.lineNumber, (ls.getLastD l).lineNumber, ls.length + 1⟩

/-- The folds of the runs of a block, of which `run` is the run just before these lines. -/
def Run.foldsOf (run : Option Run) : List Line → List Fold
  | [] => run.elim [] Run.folds
  | l :: ls => Run.closed run l ++ Run.foldsOf (Run.next? run l) ls

namespace Run

/-- A line that is like those in front makes their run longer. -/
theorem next?_ofLines {l m : Line} (ls : List Line) (alike : l.runKey? = m.runKey?) :
    closed (ofLines (l :: ls)) m = []
      ∧ next? (ofLines (l :: ls)) m = ofLines (l :: (ls ++ [m])) := by
  cases key : m.runKey? with
  | none => simp [ofLines, closed, next?, alike, key]
  | some k => simp [ofLines, closed, next?, alike, key]

/-- Any other line closes it and opens its own. -/
theorem next?_ofLines_of_ne {l m : Line} (ls : List Line) (other : l.runKey? ≠ m.runKey?) :
    closed (ofLines (l :: ls)) m = (ofLines (l :: ls)).elim [] folds
      ∧ next? (ofLines (l :: ls)) m = ofLines [m] := by
  cases key : l.runKey? with
  | none =>
    cases own : m.runKey? with
    | none => exact absurd (key.trans own.symm) other
    | some k => simp [ofLines, closed, next?, key, own]
  | some k =>
    cases own : m.runKey? with
    | none => simp [ofLines, closed, next?, key, own]
    | some j =>
      have ne : k ≠ j := fun same => other (by rw [key, own, same])
      simp [ofLines, closed, next?, key, own, ne, ne.symm]

/-- Lines are a chain of lines alike if all are like the first. -/
theorem isChain_likeKeyed {l : Line} {ls : List Line} :
    ((l :: ls).IsChain fun a b => a.likeKeyed b) ↔ ∀ m ∈ ls, l.runKey? = m.runKey? := by
  have keys : ((l :: ls).IsChain fun a b => a.likeKeyed b)
      ↔ (l.runKey? :: ls.map Line.runKey?).IsChain (· = ·) := by
    rw [← List.map_cons, List.isChain_map]
    simp only [Line.likeKeyed, decide_eq_true_eq]
  rw [keys, List.isChain_cons_eq_iff_eq_replicate, List.eq_replicate_iff, List.forall_mem_map]
  simp only [List.length_map, true_and, eq_comm]

/-- The open run is the last group of lines that are alike, so what folds are those groups. -/
theorem foldsOf_ofLines {l : Line} {ls : List Line} (alike : ∀ m ∈ ls, l.runKey? = m.runKey?)
    (rest : List Line) :
    foldsOf (ofLines (l :: ls)) rest
      = ((l :: ls ++ rest).splitBy Line.likeKeyed).flatMap fun g => (ofLines g).elim [] folds := by
  have chain := isChain_likeKeyed.mpr alike
  induction rest generalizing l ls with
  | nil =>
    rw [List.append_nil, List.splitBy_of_isChain (List.cons_ne_nil l ls) chain,
      List.flatMap_singleton, foldsOf]
  | cons m rest ih =>
    rw [foldsOf]
    by_cases same : l.runKey? = m.runKey?
    · obtain ⟨nothing, longer⟩ := next?_ofLines ls same
      have alike : ∀ n ∈ ls ++ [m], l.runKey? = n.runKey? :=
        List.forall_mem_append.mpr ⟨alike, List.forall_mem_singleton.mpr same⟩
      rw [nothing, longer, List.nil_append, ih alike (isChain_likeKeyed.mpr alike),
        List.cons_append, List.cons_append, List.append_assoc, List.singleton_append]
    · obtain ⟨closed, own⟩ := next?_ofLines_of_ne ls same
      have apart : ∀ x ∈ (l :: ls).getLast?, x.likeKeyed m = false := by
        intro x hx
        have : l.runKey? = x.runKey? := by
          rcases List.mem_cons.mp (List.mem_of_getLast? hx) with rfl | mem
          · rfl
          · exact alike x mem
        exact decide_eq_false fun h => same (this.trans h)
      rw [closed, own, ih (by simp) (List.isChain_singleton m),
        List.splitBy_append_cons _ apart, List.splitBy_of_isChain (List.cons_ne_nil l ls) chain]
      rfl

theorem foldsOf_none (ls : List Line) :
    foldsOf none ls = (ls.splitBy Line.likeKeyed).flatMap fun g => (ofLines g).elim [] folds := by
  cases ls with
  | nil => rfl
  | cons l ls =>
    have first : next? none l = ofLines [l] := rfl
    rw [foldsOf, first, foldsOf_ofLines (by simp)]
    rfl

end Run

/-! ## 3. Maximal runs -/

section

variable {α : Type} {r : α → α → Bool} {l g : List α}

/-- Neighbouring groups, seen from the elements at their border. -/
theorem apart_of_groups {gs hs : List α}
    (h : ∃ ha hb, r (gs.getLast ha) (hs.head hb) = false) :
    ∀ a ∈ gs.getLast?, ∀ b ∈ hs.head?, r a b = false := by
  intro a ha b hb
  obtain ⟨_, _, apart⟩ := h
  rwa [List.getLast_of_mem_getLast? ha, List.head_of_mem_head? hb] at apart

/-- The groups of a list are its longest stretches of related neighbours: what stands in front of
one, or behind it, is not related to it. -/
theorem mem_splitBy_iff :
    g ∈ l.splitBy r ↔ g ≠ [] ∧ (g.IsChain fun a b => r a b) ∧ ∃ before after,
      l = before ++ g ++ after ∧ (∀ a ∈ before.getLast?, ∀ b ∈ g.head?, r a b = false)
        ∧ ∀ a ∈ g.getLast?, ∀ b ∈ after.head?, r a b = false := by
  constructor
  · intro hg
    have some_element := List.ne_nil_of_mem_splitBy hg
    obtain ⟨before, after, split⟩ := List.append_of_mem hg
    have whole := List.flatten_splitBy r l
    have solid : ∀ m ∈ l.splitBy r, m ≠ [] := fun m hm => List.ne_nil_of_mem_splitBy hm
    have apart := List.isChain_getLast_head_splitBy r l
    rw [split] at whole solid apart
    refine ⟨some_element, List.isChain_of_mem_splitBy hg, before.flatten, after.flatten, ?_, ?_, ?_⟩
    · rw [← whole, List.flatten_append, List.flatten_cons, List.append_assoc]
    · rcases List.eq_nil_or_concat before with rfl | ⟨more, c, rfl⟩
      · simp
      · have last : c ≠ [] := solid c (by simp)
        rw [List.concat_eq_append, List.append_assoc, List.singleton_append] at apart
        rw [List.concat_eq_append, List.flatten_concat, List.getLast?_append_of_ne_nil _ last]
        exact apart_of_groups (List.isChain_cons_cons.mp apart.right_of_append).1
    · cases after with
      | nil => simp
      | cons c more =>
        have first : c ≠ [] := solid c (by simp)
        rw [List.flatten_cons, List.head?_append_of_ne_nil _ first]
        exact apart_of_groups (List.isChain_cons_cons.mp apart.right_of_append).1
  · rintro ⟨some_element, chain, before, after, rfl, front, behind⟩
    have front : ∀ a ∈ before.getLast?, ∀ b ∈ (g ++ after).head?, r a b = false := by
      rwa [List.head?_append_of_ne_nil _ some_element]
    rw [List.append_assoc, List.splitBy_append front, List.splitBy_append behind,
      List.splitBy_of_isChain some_element chain]
    simp

end

/-- The key that runs of a kind have. Elements are no runs. -/
def FoldKind.runKey : FoldKind → RunKey
  | .text => .text .bar
  | .comment | .element => .comment

/-- Runs of one kind have one key. -/
theorem RunKey.eq_of_foldKind? {key : RunKey} {kind : FoldKind} (h : key.foldKind? = some kind) :
    key = kind.runKey := by
  cases key with
  | comment =>
    obtain rfl := Option.some.inj h
    rfl
  | text sigil =>
    cases sigil <;> first
      | (obtain rfl := Option.some.inj h; rfl)
      | exact absurd h (by simp [foldKind?])

/-- What a line folds as tells its key. -/
theorem Line.runKey?_of_foldKind? {l : Line} {kind : FoldKind} (h : l.foldKind? = some kind) :
    l.runKey? = some kind.runKey := by
  obtain ⟨key, own, fold⟩ := Option.bind_eq_some_iff.mp h
  rw [own, RunKey.eq_of_foldKind? fold]

/-- Next to lines of a kind, a line with another key is of another kind, and the other way round. -/
theorem Line.likeKeyed_eq_false_iff {l m : Line} {kind : FoldKind} (h : l.foldKind? = some kind) :
    (l.likeKeyed m = false ↔ m.foldKind? ≠ some kind)
      ∧ (m.likeKeyed l = false ↔ m.foldKind? ≠ some kind) := by
  have own := runKey?_of_foldKind? h
  have same : l.runKey? = m.runKey? ↔ m.foldKind? = some kind := by
    constructor
    · intro key
      rw [foldKind?, ← key, ← foldKind?, h]
    · intro other
      rw [own, runKey?_of_foldKind? other]
  constructor
  · rw [likeKeyed, decide_eq_false_iff_not, same]
  · rw [likeKeyed, decide_eq_false_iff_not, eq_comm, same]

/-- Neighbours among the lines of a list that are of one kind, enough of them to fold. The run is
maximal: the line in front of it and the line behind it are of another kind, or of none. -/
structure IsRun (kindOf : Line → Option FoldKind) (ls run : List Line) (kind : FoldKind) :
    Prop where
  long : 3 ≤ run.length
  alike : ∀ l ∈ run, kindOf l = some kind
  whole : ∃ before after, ls = before ++ run ++ after
    ∧ (∀ l ∈ before.getLast?, kindOf l ≠ some kind) ∧ ∀ l ∈ after.head?, kindOf l ≠ some kind

theorem IsRun.congr {f g : Line → Option FoldKind} {ls run : List Line} {kind : FoldKind}
    (same : ∀ l ∈ ls, f l = g l) (h : IsRun f ls run kind) : IsRun g ls run kind := by
  obtain ⟨long, alike, before, after, rfl, front, behind⟩ := h
  obtain ⟨⟨same_front, same_run⟩, same_behind⟩ := by
    simpa only [List.forall_mem_append] using same
  refine ⟨long, fun l hl => ?_, before, after, rfl, fun l hl => ?_, fun l hl => ?_⟩
  · rw [← same_run l hl, alike l hl]
  · rw [← same_front l (List.mem_of_getLast? hl)]
    exact front l hl
  · rw [← same_behind l (List.mem_of_head? hl)]
    exact behind l hl

/-- A fold goes from the first of these lines to the last. -/
structure Fold.Spans (fold : Fold) (run : List Line) : Prop where
  first : run.head?.map Line.lineNumber = some fold.startLine
  last : run.getLast?.map Line.lineNumber = some fold.endLine

/-- What a group of lines folds as, if it does. -/
theorem mem_folds_ofLines {fold : Fold} {g : List Line} :
    fold ∈ (Run.ofLines g).elim [] Run.folds ↔
      3 ≤ g.length ∧ g.head?.bind Line.foldKind? = some fold.kind ∧ fold.Spans g := by
  cases g with
  | nil => simp [Run.ofLines]
  | cons l ls =>
    have last : (l :: ls).getLast? = some (ls.getLastD l) := by
      rw [List.getLast?_cons, List.getLastD_eq_getLast?]
    rw [Run.ofLines, List.head?_cons, Option.bind_some, Line.foldKind?]
    cases key : l.runKey? with
    | none => simp
    | some k =>
      rw [Option.map_some, Option.elim_some, Run.folds, Option.bind_some]
      cases kind : k.foldKind? with
      | none => simp
      | some c =>
        dsimp only
        split
        · next long =>
          rw [List.mem_singleton]
          constructor
          · rintro rfl
            exact ⟨long, rfl, rfl, by rw [last]; rfl⟩
          · rintro ⟨-, same, first, stop⟩
            rw [last] at stop
            obtain rfl := Option.some.inj same
            obtain ⟨start, stop, kind⟩ := fold
            simp_all
        · next short => simp [Run.shortest] at short ⊢; omega

/-- The folds of the runs of a list of lines are those of its maximal runs. -/
theorem mem_foldsOf {fold : Fold} {ls : List Line} :
    fold ∈ Run.foldsOf none ls ↔ ∃ run, IsRun Line.foldKind? ls run fold.kind ∧ fold.Spans run := by
  rw [Run.foldsOf_none, List.mem_flatMap]
  constructor
  · rintro ⟨run, hrun, hfold⟩
    obtain ⟨long, first, spans⟩ := mem_folds_ofLines.mp hfold
    obtain ⟨-, chain, before, after, split, front, behind⟩ := mem_splitBy_iff.mp hrun
    obtain ⟨l, more, rfl⟩ : ∃ l more, run = l :: more :=
      List.exists_cons_of_length_pos (by omega)
    have first : l.foldKind? = some fold.kind := first
    have alike : ∀ m ∈ l :: more, m.foldKind? = some fold.kind := by
      refine List.forall_mem_cons.mpr ⟨first, fun m hm => ?_⟩
      rw [Line.foldKind?, ← Run.isChain_likeKeyed.mp chain m hm]
      exact first
    refine ⟨l :: more, ⟨long, alike, before, after, split, fun a ha => ?_, fun a ha => ?_⟩, spans⟩
    · exact (Line.likeKeyed_eq_false_iff first).2.mp (front a ha l rfl)
    · obtain ⟨last, hlast⟩ := Option.isSome_iff_exists.mp
        (List.getLast?_isSome.mpr (List.cons_ne_nil l more))
      have kind := alike last (List.mem_of_getLast? hlast)
      exact (Line.likeKeyed_eq_false_iff kind).1.mp (behind last hlast a ha)
  · rintro ⟨run, ⟨long, alike, before, after, split, front, behind⟩, spans⟩
    obtain ⟨l, more, rfl⟩ : ∃ l more, run = l :: more :=
      List.exists_cons_of_length_pos (by omega)
    have first := alike l List.mem_cons_self
    have chain : (l :: more).IsChain fun a b => a.likeKeyed b := by
      refine Run.isChain_likeKeyed.mpr fun m hm => ?_
      rw [Line.runKey?_of_foldKind? first,
        Line.runKey?_of_foldKind? (alike m (List.mem_cons_of_mem _ hm))]
    refine ⟨l :: more, mem_splitBy_iff.mpr ⟨by simp, chain, before, after, split,
      fun a ha b hb => ?_, fun a ha b hb => ?_⟩, mem_folds_ofLines.mpr ⟨long, first, spans⟩⟩
    · obtain rfl := Option.some.inj hb
      exact (Line.likeKeyed_eq_false_iff first).2.mpr (front a ha)
    · exact (Line.likeKeyed_eq_false_iff (alike a (List.mem_of_getLast? ha))).1.mpr (behind b hb)

/-! ## 4. All folds -/

/-- The fold of an element with lines under it. -/
def Line.elementFolds (l : Line) : List Fold :=
  if l.children.isEmpty then []
  else [⟨l.lineNumber, (Line.lastFrameOf l.frame l.children).start.line, .element⟩]

theorem Line.folds_eq (l : Line) : l.folds = l.elementFolds ++ Line.blockFolds none l.children := by
  cases l with
  | simple f b => rw [folds]; rfl
  | element f t ls => rw [folds]; rfl

/-- The folds of a block are those of its own runs, and those of the elements in it and of the
blocks under them. -/
theorem perm_blockFolds (run : Option Run) (ls : List Line) :
    (Line.blockFolds run ls).Perm (Run.foldsOf run ls
      ++ (Line.withinAll ls).flatMap fun l => l.elementFolds ++ Run.foldsOf none l.children) := by
  match ls with
  | [] => rw [Line.blockFolds, Run.foldsOf, Line.withinAll, List.flatMap_nil, List.append_nil]
  | l :: ls =>
    have nested := perm_blockFolds none l.children
    have later := perm_blockFolds (Run.next? run l) ls
    rw [Line.blockFolds, Run.foldsOf, Line.withinAll_cons, List.flatMap_cons, List.flatMap_append,
      l.folds_eq]
    refine List.perm_iff_count.mpr fun fold => ?_
    have nested := nested.count_eq fold
    have later := later.count_eq fold
    simp only [List.count_append] at nested later ⊢
    omega
termination_by sizeOf ls
decreasing_by
  · exact Line.sizeOf_children_lt l ls
  · simp only [List.cons.sizeOf_spec]; omega

/-- A fold of a run starts on a line that has a key, the folds of one list of lines on different
ones. -/
theorem sublist_foldsOf (run : Option Run) (ls : List Line) :
    ((Run.foldsOf run ls).map Fold.startLine).Sublist
      (run.toList.map Run.startLine
        ++ (ls.filter fun l => l.runKey?.isSome).map Line.lineNumber) := by
  have own : ∀ r : Run, (r.folds.map Fold.startLine).Sublist [r.startLine] := by
    intro r
    rw [Run.folds]
    split
    · split
      · exact .refl _
      · exact List.nil_sublist _
    · exact List.nil_sublist _
  induction ls generalizing run with
  | nil =>
    cases run with
    | none => exact .refl _
    | some r => exact own r
  | cons l ls ih =>
    have later := ih (Run.next? run l)
    rw [Run.foldsOf, List.map_append]
    cases key : l.runKey? with
    | none =>
      rw [List.filter_cons_of_neg (by simp [key])]
      have next : Run.next? run l = none := by rw [Run.next?, key]; rfl
      rw [next] at later ⊢
      refine List.Sublist.append ?_ later
      cases run with
      | none => exact .refl _
      | some r =>
        rw [Run.closed, key, if_neg (by simp)]
        exact own r
    | some k =>
      rw [List.filter_cons_of_pos (by simp [key]), List.map_cons]
      cases run with
      | none =>
        rw [Run.next?, key] at later ⊢
        exact later
      | some r =>
        rw [Run.next?, key, Option.map_some] at later ⊢
        rw [Run.closed, key]
        dsimp only at later ⊢
        by_cases same : r.key = k
        · rw [if_pos same] at later ⊢
          rw [if_pos (by rw [same])]
          exact later.trans (.cons_cons _ (List.sublist_cons_self ..))
        · rw [if_neg same] at later ⊢
          rw [if_neg fun h => same (Option.some.inj h).symm]
          exact (own r).append later

/-- There are lines under the line. -/
def Line.hasChildren (l : Line) : Bool := !l.children.isEmpty

/-- Nothing stands under a line that has a key. -/
theorem Line.children_of_runKey? {l : Line} (h : l.runKey?.isSome = true) : l.children = [] := by
  cases l with
  | simple f b => rfl
  | element f t ls => exact absurd h Bool.false_ne_true

theorem map_startLine_elementFolds (l : Line) :
    l.elementFolds.map Fold.startLine = ([l].filter Line.hasChildren).map Line.lineNumber := by
  rw [Line.elementFolds, List.filter_singleton, Line.hasChildren]
  cases l.children.isEmpty <;> rfl

/-- The lines that folds can start on, block by block, are some of the lines, each once. -/
theorem starts_subperm (ls : List Line) :
    ((ls.filter fun l => l.runKey?.isSome) ++ (Line.withinAll ls).flatMap fun l =>
        [l].filter Line.hasChildren ++ l.children.filter fun l => l.runKey?.isSome).Subperm
      (Line.withinAll ls) := by
  have elements : (Line.withinAll ls).flatMap (fun l => [l].filter Line.hasChildren)
      = (Line.withinAll ls).filter Line.hasChildren := by
    rw [← List.filter_flatMap, List.flatMap_singleton']
  have runs : (ls.filter (fun l => l.runKey?.isSome)
      ++ (Line.withinAll ls).flatMap fun l => l.children.filter fun l => l.runKey?.isSome).Perm
        ((Line.withinAll ls).filter fun l => l.runKey?.isSome) := by
    rw [← List.filter_flatMap, ← List.filter_append]
    exact (Line.perm_children ls).filter _
  have apart : ((Line.withinAll ls).filter fun l => l.runKey?.isSome).Sublist
      ((Line.withinAll ls).filter fun l => !l.hasChildren) := by
    refine List.monotone_filter_right _ fun l key => ?_
    rw [Line.hasChildren, Line.children_of_runKey? key]
    rfl
  generalize Line.withinAll ls = all at elements runs apart ⊢
  have split := (List.flatMap_append_perm all (fun l => [l].filter Line.hasChildren)
    fun l => l.children.filter fun l => l.runKey?.isSome).symm
  rw [elements] at split
  have sorted := (split.append_left _).trans
    ((List.perm_append_comm_assoc ..).trans (runs.append_left _))
  have whole := ((List.Sublist.refl _).append apart).subperm.trans
    (List.filter_append_perm Line.hasChildren all).subperm
  exact sorted.subperm.trans whole

/-- No two folds of a file start on the same line. -/
theorem nodup_folds (variant : Variant) (text : List Char) :
    ((SourceFile.ofText variant text).folds.map Fold.startLine).Nodup := by
  have numbers : ((Line.withinAll (SourceFile.ofText variant text).lines).map
      Line.lineNumber).Nodup := by
    rw [map_lineNumber]
    exact List.nodup_range
  rw [SourceFile.folds, ((perm_blockFolds none _).map Fold.startLine).nodup_iff, List.map_append,
    List.map_flatMap]
  generalize (SourceFile.ofText variant text).lines = ls at numbers ⊢
  obtain ⟨chosen, perm, among⟩ := starts_subperm ls
  have starts := (perm.map Line.lineNumber).nodup_iff.mp (numbers.sublist (among.map _))
  rw [List.map_append, List.map_flatMap] at starts
  refine starts.sublist ((sublist_foldsOf none ls).append ?_)
  refine List.Sublist.flatMap_right _ fun l _ => ?_
  rw [List.map_append, List.map_append, map_startLine_elementFolds]
  exact (List.Sublist.refl _).append (sublist_foldsOf none l.children)

/-! ## 5. Files -/

/-- A fold is of an element, or of a run in one of the blocks. -/
theorem mem_folds {fold : Fold} (file : SourceFile) :
    fold ∈ file.folds ↔ (∃ l ∈ Line.withinAll file.lines, fold ∈ l.elementFolds)
      ∨ ∃ b ∈ file.blocks, fold ∈ Run.foldsOf none b.lines := by
  rw [SourceFile.folds, (perm_blockFolds none file.lines).mem_iff, List.mem_append,
    List.mem_flatMap]
  constructor
  · rintro (top | ⟨l, hl, h⟩)
    · exact .inr ⟨file.block, List.mem_cons_self, top⟩
    · rcases List.mem_append.mp h with element | nested
      · exact .inl ⟨l, hl, element⟩
      · cases l with
        | simple f b => exact absurd nested (by simp [Line.children, Run.foldsOf])
        | element f t ls =>
          cases ls with
          | nil => exact absurd nested (by simp [Line.children, Run.foldsOf])
          | cons m ms =>
            refine .inr ⟨_, List.mem_cons_of_mem _ (List.mem_filterMap.mpr ⟨_, hl, rfl⟩), nested⟩
  · rintro (⟨l, hl, element⟩ | ⟨b, hb, nested⟩)
    · exact .inr ⟨l, hl, List.mem_append_left _ element⟩
    · rcases List.mem_cons.mp hb with rfl | hb
      · exact .inl nested
      · obtain ⟨l, hl, block⟩ := List.mem_filterMap.mp hb
        refine .inr ⟨l, hl, List.mem_append_right _ ?_⟩
        cases l with
        | simple f body => exact absurd block (by simp [Line.block?])
        | element f t ls =>
          obtain rfl := Line.eq_of_block? block
          exact nested

/-- There is something but space on the line of a text with this number. -/
def HasContent (text : List Char) (number : Nat) : Prop :=
  ∃ line, (physicalLines text)[number]? = some line ∧ ∃ c ∈ line, isSpace c = false

/-- The fold of an element: from its line to the last line with content that is nested in it. -/
structure Fold.OfElement (fold : Fold) (text : List Char) (l : Line) : Prop where
  kind : fold.kind = .element
  nested : l.children ≠ []
  start : fold.startLine = l.lineNumber
  stop : IsGreatest {n | (∃ m ∈ l.within, m.lineNumber = n) ∧ HasContent text n} fold.endLine

/-- The fold of a run of lines of a block, which are of the kind that their characters say and
follow one another in the text. -/
structure Fold.OfRun (fold : Fold) (text : List Char) (b : Block) (run : List Line) : Prop where
  isRun : IsRun (fun l => (physicalLines text)[l.lineNumber]?.bind foldKindOf?) b.lines run
    fold.kind
  spans : fold.Spans run
  consecutive : run.map Line.lineNumber = List.range' fold.startLine run.length
  length : fold.endLine - fold.startLine + 1 = run.length

section

variable {variant : Variant} {text : List Char} {l : Line} {fold : Fold}

theorem hasContent_iff (hl : l ∈ Line.withinAll (SourceFile.ofText variant text).lines) :
    HasContent text l.lineNumber ↔ l.isBlank = false := by
  have row : l.row ∈ Row.ofText text :=
    map_row_withinAll_lines variant text ▸ List.mem_map_of_mem hl
  have shape := shape_of_mem row
  rw [frame_row, lineShapes, List.getElem?_mapIdx] at shape
  obtain ⟨line, at_k, shape⟩ := Option.map_eq_some_iff.mp shape
  have blank : line.all isSpace = l.isBlank := by
    rw [← isBlank_row]
    exact congrArg LineShape.blank shape
  rw [HasContent, ← blank, List.all_eq_false]
  constructor
  · rintro ⟨other, at_k', c, hc, solid⟩
    obtain rfl := Option.some.inj (at_k.symm.trans at_k')
    exact ⟨c, hc, by simp [solid]⟩
  · rintro ⟨c, hc, solid⟩
    exact ⟨line, at_k, c, hc, by simpa using solid⟩

/-- The last of the lines nested in an element is the last one of them with content. -/
theorem isGreatest_last (hl : l ∈ Line.withinAll (SourceFile.ofText variant text).lines)
    (nested : l.children ≠ []) :
    IsGreatest {n | (∃ m ∈ l.within, m.lineNumber = n) ∧ HasContent text n}
      (Line.lastFrameOf l.frame l.children).start.line := by
  have content : l.isBlank = false := by
    cases l with
    | simple f b => exact absurd rfl nested
    | element f t ls => rfl
  have solid := isBlank_last l hl content
  rw [l.frame_last]
  refine ⟨⟨⟨l.last, l.last_mem_within, rfl⟩,
    (hasContent_iff (Line.last_mem_withinAll hl)).mpr solid⟩, ?_⟩
  rintro n ⟨⟨m, hm, rfl⟩, -⟩
  rcases eq_last_or_lt hl hm with rfl | less
  · exact Nat.le_refl _
  · exact Nat.le_of_lt less

theorem mem_elementFolds (hl : l ∈ Line.withinAll (SourceFile.ofText variant text).lines) :
    fold ∈ l.elementFolds ↔ fold.OfElement text l := by
  rw [Line.elementFolds]
  split
  · next none => exact iff_of_false (by simp) fun h => h.nested (List.isEmpty_iff.mp none)
  · next nested =>
    have nested : l.children ≠ [] := fun none => nested (List.isEmpty_iff.mpr none)
    have stop := isGreatest_last hl nested
    rw [List.mem_singleton]
    constructor
    · rintro rfl
      exact ⟨rfl, nested, rfl, stop⟩
    · rintro ⟨kind, -, start, greatest⟩
      obtain ⟨startLine, endLine, kind'⟩ := fold
      obtain rfl : kind' = _ := kind
      obtain rfl : startLine = _ := start
      obtain rfl : endLine = _ := greatest.unique stop
      rfl

/-- The lines of a run follow one another in the text, since nothing is nested in them. -/
theorem exists_range'_of_isRun {b : Block} (hb : b ∈ (SourceFile.ofText variant text).blocks)
    {run : List Line} {kind : FoldKind} (h : IsRun Line.foldKind? b.lines run kind) :
    ∃ first, run.map Line.lineNumber = List.range' first run.length := by
  have childless : ∀ l ∈ run, l.children = [] := fun l hl =>
    Line.children_of_runKey? (by rw [Line.runKey?_of_foldKind? (h.alike l hl)]; rfl)
  obtain ⟨before, after, split, -⟩ := h.whole
  have stretch : run <:+: Line.withinAll b.lines := by
    rw [split, Line.withinAll_append, Line.withinAll_append, Line.withinAll_of_childless childless]
    exact ⟨_, _, rfl⟩
  exact exists_range'_of_infix (stretch.trans (infix_block hb))

theorem mem_foldsOf_block {b : Block} (hb : b ∈ (SourceFile.ofText variant text).blocks) :
    fold ∈ Run.foldsOf none b.lines ↔ ∃ run, fold.OfRun text b run := by
  have kinds : ∀ l ∈ b.lines, l.foldKind? = (physicalLines text)[l.lineNumber]?.bind foldKindOf? :=
    fun l hl => foldKind?_of_mem (mem_lines_of_block hb hl)
  rw [mem_foldsOf]
  constructor
  · rintro ⟨run, isRun, spans⟩
    obtain ⟨first, numbers⟩ := exists_range'_of_isRun hb isRun
    have long := isRun.long
    have start : fold.startLine = first := by
      have head := spans.first
      rw [← List.head?_map, numbers, List.head?_range', if_neg (by omega)] at head
      exact (Option.some.inj head).symm
    have stop : fold.endLine = first + run.length - 1 := by
      have last := spans.last
      rw [← List.getLast?_map, numbers, List.getLast?_range', if_neg (by omega)] at last
      exact (Option.some.inj last).symm
    exact ⟨run, isRun.congr kinds, spans, start ▸ numbers, by omega⟩
  · rintro ⟨run, h⟩
    exact ⟨run, h.isRun.congr fun l hl => (kinds l hl).symm, h.spans⟩

end

/-- The folds of a text, as they are sent when nothing is cancelled, whatever was known of them
before: for each element with lines under it one from its line to the last line with content among
these, for each run of three or more neighbouring lines of a block that are all comments or all
block text, and that is as long as it can be, one from the first of these lines to the last, and no
others. No two are the same. -/
theorem folds_exact (variant : Variant) (text : List Char) :
    let file := SourceFile.ofText variant text
    (∀ a : Analysis, a.tree = file → a.folds = none →
        (a.foldsUnless false).1 = .ok file.folds)
      ∧ (∀ memo : FoldMemo, memo.Agrees file →
        ((Folder.file false file).runOn memo).1 = .ok file.folds)
      ∧ file.folds.Nodup
      ∧ ∀ fold, fold ∈ file.folds ↔
        (∃ l ∈ Line.withinAll file.lines, fold.OfElement text l)
          ∨ ∃ b ∈ file.blocks, ∃ run, fold.OfRun text b run := by
  intro file
  refine ⟨fun a tree unknown => ?_, fun memo agrees => ?_,
    List.Nodup.of_map _ (nodup_folds variant text), fun fold => ?_⟩
  · rw [Analysis.foldsUnless, unknown, tree]
    rfl
  · obtain ⟨left, walked, -⟩ := Folder.runOn_file agrees
    rw [walked]
  · rw [mem_folds]
    exact or_congr
      (exists_congr fun l => and_congr_right fun hl => mem_elementFolds hl)
      (exists_congr fun b => and_congr_right fun hb => mem_foldsOf_block hb)

end OffsideMarkup
