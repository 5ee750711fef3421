/-
OffsideMarkup.Proofs.LineFeeds — how many nodes the tree of a text can have.

Nodes are not bounded by bytes. A line that has no content is still a line, with the comment that it
opens with and the break that it ends with, so a text of nothing but line feeds has three nodes for
each byte (`size_root_feeds`). `lines_feeds` says what its lines are, wherever they stand, by one
step of the scanner onto the comment and one onto the break (`Scanner.run_feed`).
-/
import OffsideMarkup.Grammar.Offside
import OffsideMarkup.Proofs.ByteCut
import OffsideMarkup.Proofs.NodeStore
import OffsideMarkup.Proofs.TokenLines

namespace OffsideMarkup

/-! ## 1. The tokens -/

/-- The tokens of a line that has only a line feed. -/
def TokenLine.blank (here : Location) : TokenLine :=
  ⟨none, [⟨.comment, here, [], []⟩], ⟨.lineBreak, here, [], ['\n']⟩⟩

/-- Lines that have only a line feed, one behind the other. -/
def TokenLine.blanks (here : Location) : Nat → List TokenLine
  | 0 => []
  | n + 1 => blank here :: blanks (here.after ['\n']).nextLine n

/-- There is no space in front of a line feed, so it is left to the lexeme. -/
theorem cut_feed (previous : Kind) (here : Location) (cs : List Char) :
    cut previous here ('\n' :: cs)
      = let next := lexeme previous.opensLine ('\n' :: cs)
        (⟨next.1, here, [], next.2.1⟩, next.2.2) := by
  have space : ('\n' :: cs).takeWhile isInlineSpace = [] := rfl
  have body : ('\n' :: cs).dropWhile isInlineSpace = '\n' :: cs := rfl
  rw [cut, space, body, if_neg fun h => h.2 rfl]

theorem lineBreakTail_feed (cs : List Char) : lineBreakTail '\n' cs = ([], cs) := by
  unfold lineBreakTail
  split <;> rfl

namespace Scanner

variable {s : Scanner} {cs : List Char}

/-- Where a line opens, a comment without characters stands in front of the feed. -/
theorem scan_comment (opens : s.token.kind.opensLine = true) (feed : s.rest = '\n' :: cs) :
    s.scan = ⟨⟨.comment, s.token.stop, [], []⟩, '\n' :: cs⟩ := by
  rw [scan, feed, cut_feed, opens]
  rfl

theorem scan_feed (inside : s.token.kind.opensLine = false) (feed : s.rest = '\n' :: cs) :
    s.scan = ⟨⟨.lineBreak, s.token.stop, [], ['\n']⟩, cs⟩ := by
  have brk : lexeme false ('\n' :: cs)
      = (.lineBreak, '\n' :: (lineBreakTail '\n' cs).1, (lineBreakTail '\n' cs).2) := rfl
  rw [scan, feed, cut_feed, inside, brk, lineBreakTail_feed]

/-- Over a line that has only a line feed. -/
theorem run_feed (opens : s.token.kind.opensLine = true) (feed : s.rest = '\n' :: cs) :
    s.run.map (·.token) = ⟨.comment, s.token.stop, [], []⟩
      :: ⟨.lineBreak, s.token.stop, [], ['\n']⟩
      :: (run ⟨⟨.lineBreak, s.token.stop, [], ['\n']⟩, cs⟩).map (·.token) := by
  have comment := scan_comment opens feed
  have brk := scan_feed (s := s.scan) (by rw [comment]; rfl) (by rw [comment])
  have stop : s.scan.token.stop = s.token.stop := by
    rw [comment, Token.stop, if_neg (by simp)]
    exact Location.after_nil _
  rw [stop] at brk
  rw [run, if_neg (by simp [comment]), run, if_neg (by simp [brk]), brk, comment]
  rfl

theorem split_feeds (n : Nat) (opens : s.token.kind.opensLine = true)
    (feeds : s.rest = List.replicate n '\n') :
    TokenLine.split [] (s.run.map (·.token)) = TokenLine.blanks s.token.stop n := by
  induction n generalizing s with
  | zero =>
    have atEnd := (scan_of_rest_nil feeds).1
    rw [run, if_pos atEnd, List.map_singleton, TokenLine.split, atEnd]
    rfl
  | succ n ih =>
    have later := ih (s := ⟨⟨.lineBreak, s.token.stop, [], ['\n']⟩, List.replicate n '\n'⟩) rfl rfl
    rw [run_feed opens feeds]
    simp only [TokenLine.split, reduceCtorEq, if_false, if_true, later]
    rfl

end Scanner

theorem ofText_feeds (n : Nat) :
    TokenLine.ofText (List.replicate n '\n') = TokenLine.blanks .origin n :=
  Scanner.split_feeds n rfl rfl

/-! ## 2. The lines -/

/-- A line that has only a line feed. -/
def Line.blank (here : Location) : Line :=
  .simple ⟨here, none, ⟨.lineBreak, here, ['\n'], false⟩, []⟩
    (.comment (some ⟨.comment, here, [], false⟩))

def Line.blanks (here : Location) : Nat → List Line
  | 0 => []
  | n + 1 => blank here :: blanks (here.after ['\n']).nextLine n

theorem nest_blanks (here : Location) (n : Nat) :
    Line.nest ((TokenLine.blanks here n).map Row.ofTokenLine) = Line.blanks here n := by
  induction n generalizing here with
  | zero => rw [TokenLine.blanks, List.map_nil, Line.nest]; rfl
  | succ n ih =>
    have row : Row.ofTokenLine (TokenLine.blank here) = .simple ⟨here, none,
      ⟨.lineBreak, here, ['\n'], false⟩, []⟩ (.comment (some ⟨.comment, here, [], false⟩)) := rfl
    rw [TokenLine.blanks, List.map_cons, row, Line.nest, ih]
    rfl

theorem lines_feeds (variant : Variant) (n : Nat) :
    (SourceFile.ofText variant (List.replicate n '\n')).lines = Line.blanks .origin n := by
  show Line.nest ((TokenLine.ofText (List.replicate n '\n')).map Row.ofTokenLine) = _
  rw [ofText_feeds, nest_blanks]

/-! ## 3. The nodes -/

theorem sizeAll_blanks (here : Location) (n : Nat) :
    Rose.sizeAll (Line.nodesOf (Line.blanks here n)) = 3 * n := by
  induction n generalizing here with
  | zero => rfl
  | succ n ih =>
    have own : (Line.blank here).node.size = 3 := rfl
    rw [Line.blanks, Line.nodesOf, Rose.sizeAll, own, ih]
    omega

/-- Three nodes for each line feed, and two more: the root, and the end of the text. -/
theorem size_root_feeds (variant : Variant) (n : Nat) :
    (SourceFile.ofText variant (List.replicate n '\n')).root.size = 3 * n + 2 := by
  rw [← Rose.sizeAll_children, SourceFile.root, Node.compose, Rose.children, lines_feeds,
    Rose.sizeAll_append, sizeAll_blanks]
  rfl

theorem byteLength_feeds (n : Nat) : byteLength (List.replicate n '\n') = n :=
  (byteLength_replicate n '\n').trans (Nat.mul_one n)

/-- The first nodes that are stored of a text with a line feed in front are those of its first line:
the comment, the break, and the line. -/
theorem entries_feeds (variant : Variant) (n : Nat) :
    ∃ line rest, Node.entriesAll 0 none
        (SourceFile.ofText variant (List.replicate (n + 1) '\n')).root.children
      = ⟨.comment, ⟨.origin, .origin⟩, 0, false, none, [], some 2⟩
        :: ⟨.lineBreak, ⟨.origin, (Location.origin.after ['\n']).nextLine⟩, 1, false, none, [],
          some 2⟩
        :: line :: rest ∧ line.kind = .commentLine ∧ line.parent = none := by
  rw [SourceFile.root, Node.compose, Rose.children, lines_feeds, Line.blanks, Line.nodesOf,
    List.cons_append, Node.entriesAll]
  exact ⟨_, _, rfl, rfl, rfl⟩

end OffsideMarkup
