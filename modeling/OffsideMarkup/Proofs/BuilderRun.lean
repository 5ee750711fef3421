/-
OffsideMarkup.Proofs.BuilderRun — single steps of the builder.

`Builds m b a b'` says that a step of the machine comes to an end in order, with an answer and in a
state; steps are put together by `Builds.bind`. A step that stores nodes does so only where there
are words to number them: `Stores m b a b'` says that it ends so if all that is stored in the end
can be numbered. Storage grows along such steps, so what is enough in the end was enough before, and
they are put together without a count (`Stores.bind`).

Here are the steps that the rules of the grammar are made of, and what keeps each of them from going
wrong:

* an index that was handed out stays good, because storage only grows behind it (`Grown`);
* a coordinate fits a word, because it is at most the number of bytes in front (`Scanner.Within`);
* looking ahead ends, because it goes over one blank line after the other (`builds_findContent`).

`Stands` says where the machine is inside a line, in terms of the tokens of the line.
-/
import OffsideMarkup.Proofs.NodeStore
import OffsideMarkup.Proofs.ReaderTiling

namespace OffsideMarkup

/-! ## 1. Steps that come to an end -/

/-- The step ends in order, with this answer and in this state. -/
def Builds {α : Type} (m : Build α) (b : Builder) (a : α) (b' : Builder) : Prop :=
  m b = Part.some (.ok (a, b'))

section
variable {α β : Type} {b b' b'' : Builder}

theorem builds_pure (a : α) (b : Builder) : Builds (pure a) b a b := rfl

/-- The next step goes on from what is known of the first. -/
theorem Builds.run_bind {m : Build α} {a : α} (h : Builds m b a b') (next : α → Build β) :
    (m >>= next) b = next a b' := by
  rw [Builds] at h
  show Part.bind (m b) (ExceptT.bindCont fun x => next x.1 x.2) = _
  rw [h, Part.bind_some]
  rfl

theorem Builds.bind {m : Build α} {next : α → Build β} {a : α} {c : β} (h : Builds m b a b')
    (h' : Builds (next a) b' c b'') : Builds (m >>= next) b c b'' := (h.run_bind next).trans h'

theorem Builds.map {m : Build α} {f : α → β} {a : α} (h : Builds m b a b') :
    Builds (do return f (← m)) b (f a) b' := h.bind (builds_pure (f a) b')

theorem builds_get (b : Builder) : Builds get b b b := rfl

theorem builds_modify (f : Builder → Builder) (b : Builder) : Builds (modify f) b () (f b) := rfl

end

/-- The step gives up no node, and it ends in order, with this answer and in this state, if there
are words enough for the nodes that are stored then. -/
structure Stores {α : Type} (m : Build α) (b : Builder) (a : α) (b' : Builder) : Prop where
  grows : b.nodes.size ≤ b'.nodes.size
  ends : b'.nodes.size ≤ wordBound → Builds m b a b'

section
variable {α β : Type} {b b' b'' : Builder} {m n : Build α} {next : α → Build β} {a : α} {c : β}

theorem Builds.stores (h : Builds m b a b') (same : b'.nodes = b.nodes) : Stores m b a b' :=
  ⟨same ▸ Nat.le_refl _, fun _ => h⟩

/-- What is enough in the end was enough in between. -/
theorem Stores.bind (h : Stores m b a b') (h' : Stores (next a) b' c b'') :
    Stores (m >>= next) b c b'' :=
  ⟨h.grows.trans h'.grows, fun room => (h.ends (h'.grows.trans room)).bind (h'.ends room)⟩

/-- A step that stores nothing, in front of one that does. -/
theorem Builds.bind_stores (h : Builds m b a b') (same : b'.nodes = b.nodes)
    (h' : Stores (next a) b' c b'') : Stores (m >>= next) b c b'' := (h.stores same).bind h'

theorem stores_pure (a : α) (b : Builder) : Stores (pure a) b a b := (builds_pure a b).stores rfl

theorem Stores.map {f : α → β} (h : Stores m b a b') : Stores (do return f (← m)) b (f a) b' :=
  h.bind (stores_pure (f a) b')

/-- Another step that is the same where there is room. -/
theorem Stores.congr (h : Stores n b a b') (same : b'.nodes.size ≤ wordBound → m b = n b) :
    Stores m b a b' := ⟨h.grows, fun room => (same room).trans (h.ends room)⟩

end

namespace Build

variable {b b' : Builder}

theorem builds_current (b : Builder) : Builds current b b.scanner.token b := (builds_get b).map

theorem builds_isAt (kind : Kind) (b : Builder) :
    Builds (isAt kind) b (b.scanner.token.kind == kind) b := (builds_current b).map

theorem builds_isAtAny (kinds : KindSet) (b : Builder) :
    Builds (isAtAny kinds) b (kinds.has b.scanner.token.kind) b := (builds_current b).map

theorem builds_here (b : Builder) : Builds here b b.scanner.token.start b := (builds_current b).map

theorem builds_bump (fits : b.scanner.scan.token.stop.fits = true) :
    Builds bump b () { b with scanner := b.scanner.scan } := by
  refine (builds_get b).bind ?_
  dsimp only
  rw [fits]
  exact builds_modify _ b

theorem builds_stretch {start stop : Location} (h : start.offset ≤ stop.offset) (b : Builder) :
    Builds (stretch start stop) b ⟨start, stop⟩ b := by
  rw [stretch, if_neg (by omega)]
  exact builds_pure _ b

theorem builds_entry {id : Nat} {e : Entry} (h : b.nodes.get? id = some e) :
    Builds (entry id) b e b := by
  refine (builds_get b).bind ?_
  rw [h]
  exact builds_pure e b

/-! ## 2. Storing a node -/

/-- Trees side by side that have no parent yet are given one. -/
theorem builds_adopt (parent : Nat) (ts : List Node) (front tail : List Entry) (b : Builder)
    (h : b.nodes.values = front ++ Node.entriesAll front.length none ts ++ tail) :
    Builds (adopt parent (Node.roots front.length ts)) b ()
      { b with nodes := ⟨front ++ Node.entriesAll front.length (some parent) ts ++ tail⟩ } := by
  induction ts generalizing front b with
  | nil =>
    have same : b.nodes = ⟨front ++ Node.entriesAll front.length (some parent) [] ++ tail⟩ :=
      congrArg Slots.mk h
    rw [← same]
    exact builds_pure () b
  | cons t ts ih =>
    obtain ⟨l, us⟩ := t
    rw [Node.entriesAll, ← List.append_assoc, List.append_assoc _ _ tail] at h
    rw [Node.roots, adopt]
    have found : b.nodes.get? (Node.rootAt front.length (.node l us))
        = some (l.entry (Node.roots front.length us) none) := by
      rw [Slots.get?, h]
      exact Node.getElem?_rootAt front _ none l us
    have inside : Node.rootAt front.length (.node l us) < b.nodes.size :=
      (List.getElem?_eq_some_iff.mp found).1
    have changed : b.nodes.set? (Node.rootAt front.length (.node l us))
          (l.entry (Node.roots front.length us) (some parent))
        = some ⟨front ++ Node.entries front.length (some parent) (.node l us)
          ++ (Node.entriesAll (front.length + (Rose.node l us).size) none ts ++ tail)⟩ := by
      rw [Slots.set?, if_pos inside, h, Node.set_rootAt]
    refine (builds_entry found).bind ((builds_get b).bind ?_)
    rw [show { l.entry (Node.roots front.length us) none with parent := some parent }
      = l.entry (Node.roots front.length us) (some parent) from rfl, changed]
    refine (builds_modify _ b).bind ?_
    have next : (front ++ Node.entries front.length (some parent) (.node l us)).length
        = front.length + (Rose.node l us).size := by
      rw [List.length_append, Node.length_entries]
    have others := ih (front ++ Node.entries front.length (some parent) (.node l us))
      { b with nodes := ⟨_⟩ } (by rw [next, List.append_assoc _ _ tail])
    rw [next] at others
    rw [Node.entriesAll, ← List.append_assoc front]
    exact others

end Build

/-- What the machine has done since an earlier state: it has stored trees behind what was there, and
reported findings. -/
structure Grown (b b' : Builder) (trees : List Node) (findings : List Diagnostic) : Prop where
  nodes : b'.nodes.values = b.nodes.values ++ Node.entriesAll b.nodes.size none trees
  findings : b'.findings = b.findings ++ findings

namespace Grown

variable {b b' b'' : Builder} {ts us : List Node} {fs gs : List Diagnostic}

theorem refl (b : Builder) : Grown b b [] [] :=
  ⟨(List.append_nil _).symm, (List.append_nil _).symm⟩

/-- Stepping stores nothing. -/
theorem moved (b : Builder) (s : Scanner) : Grown b { b with scanner := s } [] [] :=
  ⟨(List.append_nil _).symm, (List.append_nil _).symm⟩

theorem reported (b : Builder) (fs : List Diagnostic) :
    Grown b { b with findings := b.findings ++ fs } [] fs :=
  ⟨(List.append_nil _).symm, rfl⟩

theorem size (h : Grown b b' ts fs) : b'.nodes.size = b.nodes.size + Rose.sizeAll ts := by
  rw [Slots.size, h.nodes, List.length_append, Node.length_entriesAll]
  rfl

theorem size_singleton {t : Node} (h : Grown b b' [t] fs) :
    b'.nodes.size = b.nodes.size + t.size := h.size

/-- Of two trees stored behind the same nodes, the smaller one leaves the smaller store. -/
theorem size_le {t u : Node} (h : Grown b b' [t] fs) (h' : Grown b b'' [u] gs)
    (smaller : t.size ≤ u.size) : b'.nodes.size ≤ b''.nodes.size := by
  rw [h.size_singleton, h'.size_singleton]
  exact Nat.add_le_add_left smaller _

theorem nodes_eq (h : Grown b b' [] fs) : b'.nodes = b.nodes :=
  congrArg Slots.mk (h.nodes.trans (List.append_nil _))

theorem trans (h : Grown b b' ts fs) (h' : Grown b' b'' us gs) :
    Grown b b'' (ts ++ us) (fs ++ gs) := by
  refine ⟨?_, ?_⟩
  · rw [h'.nodes, h.nodes, Node.entriesAll_append, h.size, List.append_assoc]
  · rw [h'.findings, h.findings, List.append_assoc]

/-- Trees become one tree when a node over them is put behind them. -/
theorem node (h : Grown b b' ts fs) (l : Label) :
    Grown b { b' with nodes := ⟨b.nodes.values ++ Node.entries b.nodes.size none (.node l ts)⟩ }
      [.node l ts] fs :=
  ⟨by rw [Node.entriesAll_singleton], h.findings⟩

theorem of_findings (h : Grown b b' ts fs) (same : gs = fs) : Grown b b' ts gs :=
  ⟨h.nodes, same ▸ h.findings⟩

theorem roots (h : Grown b b' ts fs) (us : List Node) :
    Node.roots b.nodes.size (ts ++ us)
      = Node.roots b.nodes.size ts ++ Node.roots b'.nodes.size us := by
  rw [Node.roots_append, h.size]

theorem roots_cons {t : Node} (h : Grown b b' [t] fs) (us : List Node) :
    Node.roots b.nodes.size (t :: us)
      = Node.rootAt b.nodes.size t :: Node.roots b'.nodes.size us := h.roots us

/-- An index that was handed out stays good. -/
theorem get? (h : Grown b b' ts fs) {id : Nat} {e : Entry} (found : b.nodes.get? id = some e) :
    b'.nodes.get? id = some e := by
  rw [Slots.get?, h.nodes, List.getElem?_append_left]
  · exact found
  · exact (List.getElem?_eq_some_iff.mp found).1

/-- The root of a tree that was just stored. -/
theorem get?_root {l : Label} (h : Grown b b' [.node l ts] fs) :
    b'.nodes.get? (Node.rootAt b.nodes.size (.node l ts))
      = some (l.entry (Node.roots b.nodes.size ts) none) := by
  have place := Node.getElem?_rootAt b.nodes.values [] none l ts
  rw [List.append_nil] at place
  rw [Slots.get?, h.nodes, Node.entriesAll_singleton]
  exact place

end Grown

namespace Build

variable {b b' : Builder}

/-- Where there is a word left, a new node is found at the index that it gets. -/
theorem run_alloc {e : Entry} (room : b.nodes.size < wordBound) :
    alloc e b = (do adopt b.nodes.size e.children; return b.nodes.size : Build Nat)
      { b with nodes := ⟨b.nodes.values ++ [e]⟩ } := by
  have found : Builds (entry b.nodes.size) { b with nodes := ⟨b.nodes.values ++ [e]⟩ } e _ :=
    builds_entry List.getElem?_concat_length
  refine ((builds_get b).run_bind _).trans (((builds_modify _ b).run_bind _).trans ?_)
  rw [Slots.alloc_of_lt _ _ room]
  exact found.run_bind _

/-- A node that is stored over trees makes them one tree. -/
theorem stores_alloc {ts : List Node} {fs : List Diagnostic} (h : Grown b b' ts fs) (l : Label) :
    ∃ b'', Stores (alloc (l.entry (Node.roots b.nodes.size ts) none)) b'
        (Node.rootAt b.nodes.size (.node l ts)) b''
      ∧ b''.scanner = b'.scanner ∧ Grown b b'' [.node l ts] fs := by
  have root : b'.nodes.size = Node.rootAt b.nodes.size (.node l ts) := h.size
  have adopted := builds_adopt (Node.rootAt b.nodes.size (.node l ts)) ts b.nodes.values
    [l.entry (Node.roots b.nodes.size ts) none]
    { b' with nodes := ⟨b'.nodes.values ++ [l.entry (Node.roots b.nodes.size ts) none]⟩ }
    (by rw [h.nodes]; rfl)
  have one_more := (h.node l).size_singleton
  rw [Rose.size, ← Nat.add_assoc, ← h.size] at one_more
  refine ⟨_, ⟨?_, fun room => ?_⟩, ?_, h.node l⟩
  · omega
  · rw [Builds, run_alloc (by omega), root, Node.entries, ← List.append_assoc]
    exact adopted.bind (builds_pure _ _)
  · rfl

/-- Behind the last word the machine goes by the first node that was stored. If that is a leaf, no
node gets a parent. -/
theorem builds_alloc_of_full {e first : Entry} (full : b.nodes.size = wordBound)
    (found : b.nodes.get? 0 = some first) (leaf : first.children = []) :
    Builds (alloc e) b 0 { b with nodes := ⟨b.nodes.values ++ [e]⟩ } := by
  have still : Slots.get? ⟨b.nodes.values ++ [e]⟩ 0 = some first := by
    rw [← found]
    exact Slots.get?_alloc_of_lt b.nodes e (full ▸ by decide)
  refine (builds_get b).bind ((builds_modify _ b).bind ?_)
  rw [Slots.alloc_of_full _ _ full]
  refine (builds_entry still).bind ?_
  rw [leaf]
  exact (builds_pure () _).bind (builds_pure 0 _)

/-- A sound node from its start to the current token is stored. -/
theorem run_finish {l : Label} {ts : List Node} (sound : Node.Sound (.node l ts))
    (stop : b.scanner.token.start = l.extent.stop) (ids : List Nat) :
    finish l.extent.start l.kind ids l.missing l.level b = alloc (l.entry ids none) b := by
  obtain ⟨offset, units⟩ := sound.length
  have units : l.extent.start.units ≤ l.extent.stop.units := units ▸ Nat.le_add_right ..
  have offset : l.extent.start.offset ≤ l.extent.stop.offset := offset ▸ Nat.le_add_right ..
  refine ((builds_here b).run_bind _).trans ?_
  rw [stop]
  dsimp only
  rw [if_neg (by omega)]
  exact (builds_stretch offset b).run_bind _

theorem stores_finish {l : Label} {ts : List Node} {fs : List Diagnostic} (h : Grown b b' ts fs)
    (sound : Node.Sound (.node l ts)) (stop : b'.scanner.token.start = l.extent.stop) :
    ∃ b'', Stores (finish l.extent.start l.kind (Node.roots b.nodes.size ts) l.missing l.level) b'
        (Node.rootAt b.nodes.size (.node l ts)) b''
      ∧ b''.scanner = b'.scanner ∧ Grown b b'' [.node l ts] fs := by
  obtain ⟨b'', stored, rest⟩ := stores_alloc h l
  exact ⟨b'', stored.congr fun _ => run_finish sound stop _, rest⟩

end Build

/-! ## 3. Coordinates -/

theorem unitLength_le_byteLength (cs : List Char) : unitLength cs ≤ byteLength cs := by
  induction cs with
  | nil => exact Nat.le_refl 0
  | cons c cs ih =>
    have first : unitWidth c ≤ c.utf8Size := by
      have pos := c.utf8Size_pos
      rw [unitWidth]
      split
      · exact pos
      · next wide =>
        rw [Char.utf8Size]
        have wide : ¬c.val.toNat < 65536 := wide
        repeat' split
        all_goals first | omega | skip
        all_goals
          rename_i h
          have := UInt32.le_iff_toNat_le.mp h
          simp at this
          omega
    rw [unitLength_cons, byteLength_cons]
    omega

/-- What is known of the coordinates of a scanner in a text that is not too long: none exceeds the
number of bytes in front, and with the bytes to come these fit a word. -/
structure Scanner.Within (s : Scanner) : Prop where
  bytes : s.token.stop.offset + byteLength s.rest < wordBound
  units : s.token.stop.units ≤ s.token.stop.offset
  column : s.token.stop.column ≤ s.token.stop.units
  line : s.token.stop.line ≤ s.token.stop.offset

namespace Scanner

variable {s : Scanner}

theorem Within.scan (h : s.Within) : s.scan.Within := by
  have split : byteLength s.scan.token.source + byteLength s.scan.rest = byteLength s.rest := by
    rw [← byteLength_append, s.source_scan]
  have narrow := unitLength_le_byteLength s.scan.token.source
  obtain ⟨bytes, units, column, line⟩ := h
  by_cases kind : s.scan.token.kind = .lineBreak
  · have some_byte : 0 < byteLength s.scan.token.source := by
      rw [Token.source, byteLength_append]
      obtain ⟨-, brk⟩ := scan_of_lineBreak kind
      cases lexeme : s.scan.token.lexeme with
      | nil => rw [lexeme] at brk; cases brk
      | cons c cs =>
        have := c.utf8Size_pos
        rw [byteLength_cons]
        omega
    constructor <;>
      · rw [Token.stop, if_pos kind, start_scan]
        simp only [Location.nextLine, Location.after]
        omega
  · constructor <;>
      · rw [Token.stop, if_neg kind, start_scan]
        simp only [Location.after]
        omega

theorem Within.passes {e : Scanner} {ts : List Token} (h : s.Within) (passes : s.Passes ts e) :
    e.Within := by
  induction ts generalizing s with
  | nil => rw [Passes] at passes; exact passes ▸ h
  | cons t ts ih => exact ih h.scan passes.2

theorem Within.pastIndent (h : s.Within) : s.pastIndent.Within := by
  rw [Scanner.pastIndent]
  split
  · exact h.scan
  · exact h

theorem Within.fits (h : s.Within) : s.token.stop.fits = true := by
  obtain ⟨bytes, units, column, line⟩ := h
  simp only [Location.fits, Bool.and_eq_true, decide_eq_true_eq]
  omega

end Scanner

/-! ## 4. In front of the rest of a line -/

/-- The machine stands in front of these tokens, and behind them on one that ends the line. -/
structure Stands (b : Builder) (e : Scanner) (given : List Token) : Prop where
  passes : b.scanner.Passes given e
  inner : ∀ t ∈ given, t.kind.endsLine = false
  solid : ∀ t ∈ given, t.source ≠ []
  ends : e.token.kind.endsLine = true
  within : b.scanner.Within

namespace Stands

variable {b b' : Builder} {e : Scanner} {t : Token} {ts given : List Token}

theorem token (h : Stands b e given) : b.scanner.token = given.headD e.token := by
  have passes := h.passes
  cases given with
  | nil => rw [Scanner.Passes] at passes; rw [passes]; rfl
  | cons t ts => exact passes.1

theorem start (h : Stands b e given) : b.scanner.token.start = nextStart e.token given := by
  rw [h.token]
  rfl

theorem inLine (h : Stands b e given) : InLine e.token given := h.passes.inLine h.inner

theorem of_scanner (h : Stands b e given) (same : b'.scanner = b.scanner) : Stands b' e given :=
  ⟨same ▸ h.passes, h.inner, h.solid, h.ends, same ▸ h.within⟩

theorem atEnd (h : Stands b e given) (nothing : given = []) : Stands b e [] := nothing ▸ h

/-- One token further. -/
theorem tail (h : Stands b e (t :: ts)) (same : b'.scanner = b.scanner.scan) : Stands b' e ts :=
  ⟨same ▸ h.passes.2, fun u hu => h.inner u (List.mem_cons_of_mem t hu),
    fun u hu => h.solid u (List.mem_cons_of_mem t hu), h.ends, same ▸ h.within.scan⟩

/-- At a line end there is nothing left of the line. -/
theorem isEmpty (h : Stands b e given) : b.scanner.token.kind.endsLine = given.isEmpty := by
  rw [h.token]
  cases given with
  | nil => exact h.ends
  | cons t ts => exact h.inner t List.mem_cons_self

end Stands

/-! ## 5. Leaves -/

namespace Build

variable {b b' : Builder} {e : Scanner} {t : Token} {ts given : List Token}

/-- The current token becomes a leaf. -/
theorem stores_token (within : b.scanner.Within) (role : Role) :
    ∃ b', Stores token b (Node.rootAt b.nodes.size ((Leaf.ofToken b.scanner.token).node role)) b'
      ∧ b'.scanner = b.scanner.scan
      ∧ Grown b b' [(Leaf.ofToken b.scanner.token).node role] [] := by
  have sound := Node.sound_leaf (.ofToken b.scanner.token)
    (fun h => absurd h Bool.false_ne_true) role
  obtain ⟨b', finished, same, grown⟩ := stores_finish (Grown.moved b b.scanner.scan) sound
    (Scanner.start_scan b.scanner)
  refine ⟨b', ?_, same, grown⟩
  exact (builds_current b).bind_stores rfl ((builds_here b).bind_stores rfl
    ((builds_bump within.scan.fits).bind_stores rfl finished))

theorem stores_eat_some {kind : Kind} {id : Nat} (is : (b.scanner.token.kind == kind) = true)
    (stored : Stores token b id b') : Stores (eat kind) b (some id) b' := by
  refine (builds_isAt kind b).bind_stores rfl ?_
  rw [is]
  exact stored.map

theorem stores_expect_of {kind : Kind} {id : Nat} (is : (b.scanner.token.kind == kind) = true)
    (stored : Stores token b id b') : Stores (expect kind) b id b' := by
  refine (builds_isAt kind b).bind_stores rfl ?_
  rw [is]
  exact stored

theorem builds_eat_none {kind : Kind} (other : (b.scanner.token.kind == kind) = false) :
    Builds (eat kind) b none b := by
  refine (builds_isAt kind b).bind ?_
  rw [other]
  exact builds_pure none b

/-- A leaf is put where there is none. -/
theorem stores_missing {kind : Kind} (inner : kind ≠ .lineBreak) (role : Role) (b : Builder) :
    ∃ b', Stores (missing kind) b
        (Node.rootAt b.nodes.size ((Leaf.absent kind b.scanner.token.start).node role)) b'
      ∧ b'.scanner = b.scanner
      ∧ Grown b b' [(Leaf.absent kind b.scanner.token.start).node role] [] := by
  have stop := Leaf.stop_absent kind b.scanner.token.start inner
  have sound := Node.sound_leaf (.absent kind b.scanner.token.start) (fun _ => stop) role
  obtain ⟨b', finished, same, grown⟩ := stores_finish (Grown.refl b) sound stop.symm
  exact ⟨b', (builds_here b).bind_stores rfl finished, same, grown⟩

theorem spans_token (t : Token) : Node.Spans ⟨t.start, t.stop⟩ t.source :=
  Node.spans_leaf (.ofToken t)

theorem start_le_stop (t : Token) : t.start.offset ≤ t.stop.offset :=
  (spans_token t).1 ▸ Nat.le_add_right ..

theorem builds_report (message : Message) (args : List String) (b : Builder) :
    Builds (report message args) b ()
      { b with findings := b.findings ++ [.ofExtent message args b.scanner.token.extent] } :=
  (builds_current b).bind ((builds_stretch (start_le_stop _) b).bind (builds_modify _ b))

/-! ## 6. Looking ahead -/

theorem builds_width (b : Builder) : Builds width b b.scanner.token.width b := by
  have length : b.scanner.token.stop.units
      = b.scanner.token.start.units + b.scanner.token.width := (spans_token b.scanner.token).2
  refine (builds_current b).bind ?_
  dsimp only
  rw [length, if_neg (by omega), Nat.add_sub_cancel_left]
  exact builds_pure _ b

/-- What a token covers apart from the space in front is its lexeme. -/
theorem span_stop (t : Token) : t.span.stop = t.span.start + byteLength t.lexeme := by
  have length : t.stop.offset = t.start.offset + byteLength t.source := (spans_token t).1
  rw [Token.span, length, Token.source, byteLength_append, Nat.add_assoc]

theorem builds_atEmptyComment (b : Builder) :
    Builds atEmptyComment b b.scanner.token.isEmptyComment b := by
  have stop := span_stop b.scanner.token
  have empty : (b.scanner.token.span.start == b.scanner.token.span.stop)
      = b.scanner.token.lexeme.isEmpty := by
    rw [stop]
    cases b.scanner.token.lexeme with
    | nil => simp [byteLength_nil]
    | cons c cs =>
      have := c.utf8Size_pos
      rw [byteLength_cons, List.isEmpty_cons, beq_eq_false_iff_ne]
      omega
  refine (builds_isAt .comment b).bind ?_
  rw [Token.isEmptyComment, ← empty]
  cases b.scanner.token.kind == .comment with
  | false => exact builds_pure false b
  | true =>
    refine (builds_current b).bind ?_
    dsimp only
    rw [stop, if_neg (by omega)]
    exact builds_pure _ b

theorem builds_pastIndent (within : b.scanner.Within) :
    Builds pastIndent b b.scanner.indentHere { b with scanner := b.scanner.pastIndent } := by
  refine (builds_isAt .indentation b).bind ?_
  rw [Scanner.indentHere, Scanner.pastIndent]
  by_cases kind : b.scanner.token.kind = .indentation
  · rw [beq_iff_eq.mpr kind, if_pos kind, if_pos kind]
    exact (builds_width b).bind ((builds_bump within.scan.fits).bind (builds_pure _ _))
  · rw [beq_eq_false_iff_ne.mpr kind, if_neg kind, if_neg kind]
    exact builds_pure 0 b

theorem builds_nextLine (within : b.scanner.Within)
    (brk : b.scanner.scan.token.kind = .lineBreak) :
    Builds nextLine b true { b with scanner := b.scanner.scan.scan } := by
  have onto := builds_bump (b := { b with scanner := b.scanner.scan }) within.scan.scan.fits
  refine (builds_bump within.scan.fits).bind ((builds_isAt .lineBreak _).bind ?_)
  rw [beq_iff_eq.mpr brk]
  exact onto.bind (builds_pure true _)

theorem builds_nextLine_none (within : b.scanner.Within)
    (other : b.scanner.scan.token.kind ≠ .lineBreak) :
    Builds nextLine b false { b with scanner := b.scanner.scan } := by
  refine (builds_bump within.scan.fits).bind ((builds_isAt .lineBreak _).bind ?_)
  rw [beq_eq_false_iff_ne.mpr other]
  exact builds_pure false _

/-- Behind an indentation, a blank line is gone over. -/
theorem builds_findContent_blank (within : b.scanner.Within) {n : Nat}
    (blank : b.scanner.pastIndent.token.isEmptyComment = true)
    (rest : Builds (do if ← nextLine then findContent else return 0)
      { b with scanner := b.scanner.pastIndent } n b') : Builds findContent b n b' := by
  have empty := builds_atEmptyComment { b with scanner := b.scanner.pastIndent }
  rw [blank] at empty
  rw [findContent_eq]
  exact (builds_pastIndent within).bind (empty.bind rest)

/-- At the end of the text, or in front of content, looking ahead stops. -/
theorem builds_findContent_stop (within : b.scanner.Within)
    (other : b.scanner.pastIndent.token.isEmptyComment = false) :
    Builds findContent b
      (if b.scanner.pastIndent.token.kind = .endOfText then 0 else b.scanner.indentHere)
      { b with scanner := b.scanner.pastIndent } := by
  have empty := builds_atEmptyComment { b with scanner := b.scanner.pastIndent }
  rw [other] at empty
  rw [findContent_eq]
  refine (builds_pastIndent within).bind (empty.bind ((builds_isAt .endOfText _).bind ?_))
  by_cases atEnd : b.scanner.pastIndent.token.kind = .endOfText
  · rw [beq_iff_eq.mpr atEnd, if_pos atEnd]
    exact builds_pure 0 _
  · rw [beq_eq_false_iff_ne.mpr atEnd, if_neg atEnd]
    exact builds_pure _ _

/-- Going over blank lines ends, and finds what the scanner finds. -/
theorem builds_findContent (within : b.scanner.Within) :
    ∃ s, Builds findContent b b.scanner.indentAhead { b with scanner := s } := by
  generalize here : b.scanner = s at within ⊢
  induction s using Scanner.indentAhead.induct generalizing b with
  | case1 s first blank brk =>
    rename_i ih
    subst here
    have front := within.pastIndent
    obtain ⟨r, later⟩ := @ih { b with scanner := b.scanner.pastIndent.scan.scan } rfl
      front.scan.scan
    have next := builds_nextLine (b := { b with scanner := b.scanner.pastIndent }) front brk
    rw [Scanner.indentAhead, if_pos blank, if_pos brk]
    exact ⟨r, builds_findContent_blank within blank (next.bind later)⟩
  | case2 s first blank =>
    rename_i other
    subst here
    have front := within.pastIndent
    have next := builds_nextLine_none (b := { b with scanner := b.scanner.pastIndent }) front other
    rw [Scanner.indentAhead, if_pos blank, if_neg other]
    exact ⟨_, builds_findContent_blank within blank (next.bind (builds_pure 0 _))⟩
  | case3 s first other =>
    subst here
    have stop := builds_findContent_stop within (Bool.eq_false_iff.mpr other)
    rw [Scanner.indentAhead, if_neg other]
    exact ⟨_, stop⟩
  | case4 s first other =>
    subst here
    have stop := builds_findContent_stop within (Bool.eq_false_iff.mpr other)
    rw [Scanner.indentAhead, if_neg other]
    exact ⟨_, stop⟩

/-- Looking ahead comes to an end and leaves the machine where it was. -/
theorem builds_lookAhead (within : b.scanner.Within) :
    Builds lookAhead b b.scanner.indentAhead b := by
  obtain ⟨s, found⟩ := builds_findContent within
  exact (builds_get b).bind (found.bind ((builds_modify _ _).bind (builds_pure _ b)))

end Build

end OffsideMarkup
