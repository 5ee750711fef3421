/-
OffsideMarkup.Proofs.Speculation — trying a value is as good as knowing what it is.

The value behind the equals sign of an attribute or a property is one hole or a template, and both
can start with double braces. So the hole is tried, and if the line goes on behind it, what it has
built and reported is taken back and the template is read from the same place.

* `Reader.mustacheBehind_rest` — a hole takes everything up to the first closing braces and with
  them, and everything there is if there are none, however malformed it is. So whether it makes up
  the rest of its line can be told from the tokens, before any of them is read (`Reader.isHole`).
* `Reader.decidedValue` — a reader of values that asks this first and then reads once. It is the
  reader of values (`Reader.decidedValue_eq`), and a file that is read with it is the file.
* `Build.Speculates` — what the machine does with a value where it stands: an attempt that fails has
  stored the nodes of a hole and reported its findings, and leaves the state exactly as it was.

`value_decided` puts this together for every attribute and property of every text.
-/
import OffsideMarkup.Proofs.BuilderTotal
import OffsideMarkup.Proofs.LineOrder

namespace OffsideMarkup

namespace Reader

variable {α : Type} {stop t : Token} {ts given rest : List Token} {kind : Kind}

/-! ## 1. What a hole takes -/

/-- What is left of tokens when only some in front were taken, none of them of this kind. -/
def Skips (kind : Kind) (given rest : List Token) : Prop :=
  ∃ front, given = front ++ rest ∧ ∀ t ∈ front, t.kind ≠ kind

namespace Skips

theorem refl (kind : Kind) (given : List Token) : Skips kind given given := ⟨[], rfl, by simp⟩

theorem cons (other : t.kind ≠ kind) (h : Skips kind ts rest) : Skips kind (t :: ts) rest := by
  obtain ⟨front, rfl, none⟩ := h
  exact ⟨t :: front, rfl, List.forall_mem_cons.mpr ⟨other, none⟩⟩

theorem trans {last : List Token} (h : Skips kind given rest) (h' : Skips kind rest last) :
    Skips kind given last := by
  obtain ⟨front, rfl, none⟩ := h
  obtain ⟨more, rfl, none'⟩ := h'
  exact ⟨front ++ more, (List.append_assoc ..).symm, List.forall_mem_append.mpr ⟨none, none'⟩⟩

/-- The first token of the kind is still ahead. -/
theorem dropWhile_eq (h : Skips kind given rest) :
    given.dropWhile (fun t => t.kind != kind) = rest.dropWhile fun t => t.kind != kind := by
  obtain ⟨front, rfl, none⟩ := h
  exact List.dropWhile_append_of_pos fun t ht => bne_iff_ne.mpr (none t ht)

end Skips

/-- The reader takes no token of this kind. -/
def Spares (kind : Kind) (r : Reader α) : Prop := ∀ stop given, Skips kind given (r stop given).rest

theorem spares_literal {stops : KindSet} (h : stops.has kind = true) :
    Spares kind (literal stops) := by
  intro stop given
  refine ⟨given.takeWhile fun t => !stops.has t.kind, List.takeWhile_append_dropWhile.symm, ?_⟩
  rintro t ht rfl
  have inside := List.mem_takeWhile_imp ht
  rw [h] at inside
  exact absurd inside (by decide)

theorem spares_name {stops : KindSet} (h : stops.has kind = true) : Spares kind (name stops) := by
  intro stop given
  cases given with
  | nil =>
    rw [name_of_stop (by simp)]
    exact .refl kind _
  | cons t ts =>
    cases stopped : stops.has t.kind with
    | true =>
      rw [name_of_stop (by simpa using stopped)]
      exact .refl kind _
    | false =>
      rw [name_of_content stopped]
      exact spares_literal h stop _

theorem spares_dotted {item : Reader α} (dot : kind ≠ .dot) (h : Spares kind item) :
    Spares kind (dotted item) := by
  intro stop given
  induction given using dotted.induct item stop with
  | case1 =>
    rw [dotted_of_other item (by simp)]
    exact .refl kind _
  | case2 t ts is first later =>
    rw [dotted_of_dot item is]
    exact .cons (is ▸ dot.symm) ((h stop ts).trans later)
  | case3 t ts other =>
    rw [dotted_of_other item (by simpa using other)]
    exact .refl kind _

theorem spares_chain {item : Reader α} (dot : kind ≠ .dot) (h : Spares kind item) :
    Spares kind (chain item) :=
  fun stop given => (h stop given).trans (spares_dotted dot h stop _)

theorem spares_behind {sign : Kind} {r : Reader α} (other : sign ≠ kind) (h : Spares kind r) :
    Spares kind (behind sign r) := by
  intro stop given
  rcases head_cases sign given with ⟨t, ts, rfl, is⟩ | absent
  · rw [behind_of_kind r is]
    exact .cons (is ▸ other) (h stop ts)
  · rw [behind_of_other r absent]
    exact .refl kind _

/-- A hole, malformed or not, ends behind the first closing braces, or with its line. -/
theorem mustacheBehind_rest (opening : Leaf) (stop : Token) (given : List Token) :
    (mustacheBehind opening stop given).rest
      = (given.dropWhile fun t => t.kind != .mustacheClose).tail := by
  have pathStops : ReadsUpTo [.equals, .mustacheClose]
      (chain (name (.ofList [.dot, .equals, .mustacheClose]))) :=
    readsUpTo_chain (readsUpTo_name _)
  have before := before_behind stop (readsUpTo_literal [.mustacheClose]) (pathStops stop given)
  have path : Spares .mustacheClose (chain (name (.ofList [.dot, .equals, .mustacheClose]))) :=
    spares_chain (by decide) (spares_name rfl)
  have fallback : Spares .mustacheClose (behind .equals (literal (.ofList [.mustacheClose]))) :=
    spares_behind (by decide) (spares_literal rfl)
  -- Path and fallback stop at the first closing braces, and only these are taken behind them.
  rw [((path stop given).trans (fallback stop _)).dropWhile_eq]
  show (expect .mustacheClose stop _).rest = _
  revert before
  generalize (behind .equals _ stop _).rest = left
  intro before
  cases left with
  | nil => rfl
  | cons t ts =>
    have close : t.kind = .mustacheClose := List.mem_singleton.mp (before t rfl)
    rw [expect_of_kind close, List.dropWhile_cons_of_neg (by simp [close])]
    rfl

/-! ## 2. Deciding first -/

/-- Whether a value is one hole, by its tokens: it starts with opening braces, and there is nothing
behind the first closing ones. -/
def isHole (given : List Token) : Bool :=
  given.head?.any (·.kind == .mustacheOpen)
    && (given.dropWhile fun t => t.kind != .mustacheClose).tail.isEmpty

theorem isHole_cons (h : t.kind = .mustacheOpen) (stop : Token) :
    isHole (t :: ts) = (mustacheBehind (.ofToken t) stop ts).rest.isEmpty := by
  rw [mustacheBehind_rest, isHole, List.dropWhile_cons_of_pos (by simp [h])]
  simp [h]

theorem isHole_of_other (h : ∀ t ∈ given.head?, t.kind ≠ .mustacheOpen) : isHole given = false := by
  cases given with
  | nil => rfl
  | cons t ts =>
    have : t.kind ≠ .mustacheOpen := h t rfl
    simp [isHole, this]

theorem isLone_iff_isHole (stop : Token) (given : List Token) :
    IsLone stop given ↔ isHole given = true := by
  constructor
  · rintro ⟨t, ts, rfl, opening, lone⟩
    rw [isHole_cons opening stop, lone]
    rfl
  · intro decided
    rcases head_cases .mustacheOpen given with ⟨t, ts, rfl, opening⟩ | other
    · rw [isHole_cons opening stop] at decided
      exact ⟨t, ts, rfl, opening, List.isEmpty_iff.mp decided⟩
    · rw [isHole_of_other other] at decided
      exact absurd decided (by decide)

/-- A hole with its opening braces. -/
def hole : Reader Mustache := do mustacheBehind (← expect .mustacheOpen)

/-- The value of an attribute, read once: what it is, is known before. -/
def decidedValue : Reader Value := fun stop given =>
  if isHole given then (do return .mustache (← hole) : Reader Value) stop given
  else (do return .template (← template .empty) : Reader Value) stop given

theorem hole_of_open (h : t.kind = .mustacheOpen) :
    hole stop (t :: ts) =
      ⟨(mustacheBehind (.ofToken t) stop ts).value, (mustacheBehind (.ofToken t) stop ts).rest,
        (mustacheBehind (.ofToken t) stop ts).findings,
        (mustacheBehind (.ofToken t) stop ts).rest_suffix.trans (List.suffix_cons t ts)⟩ := by
  rw [hole, bind_eq_andThen, andThen_of_eq (expect_of_kind h)]
  rfl

/-- To decide first is to try. -/
theorem decidedValue_eq : decidedValue = value := by
  funext stop given
  rw [decidedValue]
  by_cases lone : IsLone stop given
  · rw [if_pos ((isLone_iff_isHole stop given).mp lone)]
    obtain ⟨t, ts, rfl, opening, alone⟩ := lone
    rw [value_of_lone opening alone, bind_eq_andThen, andThen_of_eq (hole_of_open opening)]
    simp only [pure, done, List.append_nil]
  · rw [if_neg (mt (isLone_iff_isHole stop given).mpr lone), value_of_template lone]
    simp only [bind, andThen, pure, done, List.append_nil]

end Reader

/-! ## 3. Files with another reader of values -/

namespace Reader

variable {stop t : Token} {ts given : List Token}

section
variable (value : Reader Value)

/-- An attribute whose value is read in this way. -/
def attributeBehindWith (sigil : Leaf) : Reader Attribute := do
  let binding ← name (.ofList [.equals])
  let value ← behind .equals value
  return ⟨sigil, binding, none, value⟩

/-- A property whose value is read in this way. -/
def propertyBehindWith (sigil : Leaf) : Reader Attribute := do
  let binding ← name (.ofList [.equals, .atSign])
  let trigger ← behind .atSign (name (.ofList [.equals]))
  let value ← behind .equals value
  return ⟨sigil, binding, trigger, value⟩

/-- The content of a line, its value, if it has one, read in this way. -/
def contentWith : Reader Content := fun stop given =>
  match given with
  | [] => content stop []
  | t :: ts =>
    let behindSigil (r : Reader Attribute) : Reading Content (t :: ts) :=
      let a := r stop ts
      ⟨.simple (.attribute a.value), a.rest, a.findings,
        a.rest_suffix.trans (List.suffix_cons t ts)⟩
    match t.kind with
    | .hashSign => behindSigil (attributeBehindWith value (.ofToken t))
    | .percentSign => behindSigil (propertyBehindWith value (.ofToken t))
    | _ => content stop (t :: ts)

end

theorem contentWith_value : contentWith value = content := by
  funext stop given
  cases given with
  | nil => rfl
  | cons t ts =>
    rw [contentWith]
    dsimp only
    split
    · next kind =>
      simp only [content, kind, bind, andThen, pure, done, List.append_nil]
      rfl
    · next kind =>
      simp only [content, kind, bind, andThen, pure, done, List.append_nil]
      rfl
    · rfl

end Reader

/-- One line, its content read in this way. -/
def Row.ofTokenLineBy (content : Reader Reader.Content) (l : TokenLine) : Row :=
  let content := content l.stop l.body
  let frame := ⟨l.start, l.indent.map .ofToken, .ofToken l.stop, content.findings⟩
  match content.value with
  | .element tag => .element frame tag
  | .simple body => .simple frame body

theorem Row.ofTokenLineBy_content : Row.ofTokenLineBy Reader.content = Row.ofTokenLine := rfl

/-- A file with its values read in this way. -/
def SourceFile.ofTextWith (value : Reader Value) (variant : Variant) (text : List Char) :
    SourceFile :=
  { SourceFile.ofText variant text with
    lines := Line.nest ((TokenLine.ofText text).map
      (Row.ofTokenLineBy (Reader.contentWith value))) }

/-- With the values decided first, the file is the same. -/
theorem ofTextWith_decidedValue (variant : Variant) (text : List Char) :
    SourceFile.ofTextWith Reader.decidedValue variant text = SourceFile.ofText variant text := by
  rw [SourceFile.ofTextWith, Reader.decidedValue_eq, Reader.contentWith_value,
    Row.ofTokenLineBy_content]
  exact rfl

/-! ## 4. The machine -/

/-- A step ends in one way only. -/
theorem Builds.state_unique {α : Type} {b b' b'' : Builder} {m : Build α} {a a' : α}
    (h : Builds m b a b') (h' : Builds m b a' b'') : b' = b'' := by
  have same := Part.some_inj.mp (h.symm.trans h')
  exact congrArg Prod.snd (Except.ok.inj same)

/-- Where nothing was stored or reported, only the place in the text can have changed. -/
theorem Grown.eq_of_nil {b b' : Builder} (h : Grown b b' [] []) :
    { b' with scanner := b.scanner } = b := by
  obtain ⟨scanner, ⟨values⟩, findings⟩ := b
  obtain ⟨scanner', ⟨values'⟩, findings'⟩ := b'
  obtain ⟨nodes, reported⟩ := h
  simp only [Node.entriesAll, List.append_nil] at nodes reported
  rw [nodes, reported]

namespace Build

/-- Over the closing braces, if the machine stands on them. -/
def pastClose : Build Unit := do if ← isAt .mustacheClose then bump else return ()

/-- Whether the rest of the line is one hole, by its tokens. The machine goes over them and comes
back; it stores and reports nothing. -/
def holeAhead : Build Bool := do
  if ← isAt .mustacheOpen then
    let before := (← get).scanner
    skipTo ((KindSet.ofList [.mustacheClose]).union lineEnds)
    pastClose
    let alone ← isAtAny lineEnds
    modify fun b => { b with scanner := before }
    return alone
  else return false

/-- The value of an attribute, read once: what it is, is known before. -/
def decidedValue : Build Nat := do if ← holeAhead then mustache else templateUntil .empty

variable {b b' : Builder} {e : Scanner} {t : Token} {ts given : List Token}

theorem builds_pastClose (st : Stands b e given) (before : Reader.Before [.mustacheClose] given) :
    ∃ b', Builds pastClose b () b' ∧ Stands b' e given.tail ∧ Grown b b' [] [] := by
  cases given with
  | nil =>
    refine ⟨b, (builds_isAt _ b).bind ?_, st, Grown.refl b⟩
    rw [not_isAt st (by decide) (by simp)]
    exact builds_pure () b
  | cons t ts =>
    have close := isAt_head st (List.mem_singleton.mp (before t rfl))
    refine ⟨{ b with scanner := b.scanner.scan }, (builds_isAt _ b).bind ?_, st.tail rfl,
      Grown.moved b _⟩
    rw [close]
    exact builds_bump st.within.scan.fits

/-- Looking for the closing braces ends, and leaves the machine as it was. -/
theorem builds_holeAhead (st : Stands b e given) :
    Builds holeAhead b (Reader.isHole given) b := by
  rcases Reader.head_cases .mustacheOpen given with ⟨t, ts, rfl, opening⟩ | other
  · -- The way starts on the opening braces, which are none of those that it stops at.
    obtain ⟨b₁, skipped, st₁, grown₁⟩ := builds_skipTo (.ofList [.mustacheClose]) st
    have before := Reader.readsUpTo_literal [.mustacheClose] e.token (t :: ts)
    obtain ⟨b₂, past, st₂, grown₂⟩ := builds_pastClose st₁ before
    have there := builds_isAtAny lineEnds b₂
    have closes : (fun t : Token => !(KindSet.ofList [.mustacheClose]).has t.kind)
        = fun t : Token => t.kind != .mustacheClose := by
      funext t
      rw [Bool.eq_iff_iff]
      simp [KindSet.ofList]
    rw [lineEnds_has, st₂.isEmpty, closes] at there
    have back := (grown₁.trans grown₂).eq_of_nil
    have alone : Reader.isHole (t :: ts)
        = ((t :: ts).dropWhile fun t => t.kind != .mustacheClose).tail.isEmpty := by
      simp [Reader.isHole, opening]
    refine (builds_isAt _ b).bind ?_
    rw [isAt_head st opening, alone]
    refine (builds_get b).bind (skipped.bind (past.bind (there.bind
      ((builds_modify _ b₂).bind ?_))))
    rw [back]
    exact builds_pure _ b
  · refine (builds_isAt _ b).bind ?_
    rw [not_isAt st (by decide) other, Reader.isHole_of_other other]
    exact builds_pure false b

theorem decidedValue_of_ahead {alone : Bool} (ahead : Builds holeAhead b alone b) :
    decidedValue b = if alone then mustache b else templateUntil .empty b := by
  refine (ahead.run_bind _).trans ?_
  cases alone <;> rfl

/-- What the machine does for a value where it stands. -/
structure Speculates (b : Builder) (v : Value) (findings : List Diagnostic) : Prop where
  /-- It comes to an end, with the nodes of the value and these findings. -/
  stores : ∃ b', Builds attributeValue b (Node.rootAt b.nodes.size v.node) b'
    ∧ Grown b b' [v.node] findings
  /-- The value is a hole where the rule for holes, started here, stops on the end of the line. -/
  hole_iff : (∃ hole, v = .mustache hole) ↔ b.scanner.token.kind = .mustacheOpen
    ∧ ∃ id b', Builds mustache b id b' ∧ b'.scanner.token.kind.endsLine = true
  reads_hole : ∀ hole, v = .mustache hole → attributeValue b = mustache b
  reads_template : ∀ text, v = .template text → attributeValue b = templateUntil .empty b
  /-- What the attempt has stored and reported before it failed is gone, and it stands where it
  stood. -/
  restores : ∀ text, v = .template text → b.scanner.token.kind = .mustacheOpen →
    ∃ (tried : Mustache) (reported : List Diagnostic) (b' : Builder),
      Builds loneMustache b none b' ∧ Grown b b' [tried.node] reported
        ∧ Builds (attempt loneMustache) b none b
  decides : attributeValue b = decidedValue b

theorem speculates_hole (st : Stands b e (t :: ts)) (opening : t.kind = .mustacheOpen)
    (alone : (Reader.mustacheBehind (.ofToken t) e.token ts).rest = [])
    (room : b.nodes.size + (Reader.mustacheBehind (.ofToken t) e.token ts).value.node.size
      ≤ wordBound) :
    Speculates b (.mustache (Reader.mustacheBehind (.ofToken t) e.token ts).value)
      (Reader.mustacheBehind (.ofToken t) e.token ts).findings := by
  obtain ⟨b₁, stored, st₁, grown⟩ := stores_mustache st opening
  have size : b₁.nodes.size = _ := grown.size_singleton
  have hole := stored.ends (size.trans_le room)
  have here := isAt_head st opening
  have ends : b₁.scanner.token.kind.endsLine = true := by rw [st₁.isEmpty, alone]; rfl
  have found := stores_loneMustache stored
  rw [ends] at found
  have tried := (stores_attributeValue_of_found here (stores_attempt found)).ends
    (size.trans_le room)
  have same : attributeValue b = mustache b := tried.trans hole.symm
  have decided := decidedValue_of_ahead (builds_holeAhead st)
  rw [Reader.isHole_cons opening e.token, alone] at decided
  exact {
    stores := ⟨b₁, tried, grown⟩
    hole_iff := iff_of_true ⟨_, rfl⟩ ⟨beq_iff_eq.mp here, _, b₁, hole, ends⟩
    reads_hole := fun _ _ => same
    reads_template := fun _ h => Value.noConfusion h
    restores := fun _ h => Value.noConfusion h
    decides := same.trans decided.symm }

theorem speculates_template (st : Stands b e given) (many : ¬Reader.IsLone e.token given)
    (room : b.nodes.size + (Reader.template .empty e.token given).value.node.size ≤ wordBound) :
    Speculates b (.template (Reader.template .empty e.token given).value)
      (Reader.template .empty e.token given).findings := by
  have decided := decidedValue_of_ahead (builds_holeAhead st)
  rw [if_neg (mt (Reader.isLone_iff_isHole e.token given).mpr many)] at decided
  obtain ⟨b', stored, -, grown⟩ := follows_template .empty b e given st
  have size : b'.nodes.size = _ := grown.size_singleton
  have template := stored.ends (size.trans_le room)
  rcases Reader.head_cases .mustacheOpen given with ⟨t, ts, rfl, opening⟩ | other
  · obtain ⟨b₁, tried, st₁, left⟩ := stores_mustache st opening
    -- The hole takes no more room than the template that is read then.
    have fits : b₁.nodes.size ≤ wordBound :=
      ((left.size_le grown (Reader.size_hole_le opening e.token ts)).trans size.le).trans room
    have hole := tried.ends fits
    have goesOn : b₁.scanner.token.kind.endsLine = false := by
      rw [st₁.isEmpty, List.isEmpty_eq_false_iff]
      exact fun alone => many ⟨t, ts, rfl, opening, alone⟩
    have lone := stores_loneMustache tried
    rw [goesOn] at lone
    have found := lone.ends fits
    have failed := builds_attempt_none found left
    have same := attributeValue_of_failed (isAt_head st opening) failed
    exact {
      stores := ⟨b', same.trans template, grown⟩
      hole_iff := by
        -- There is only one run of the rule, and the line goes on behind it.
        refine iff_of_false (fun ⟨_, h⟩ => Value.noConfusion h) ?_
        rintro ⟨-, id, b₂, hole', ends⟩
        rw [hole.state_unique hole', ends] at goesOn
        exact absurd goesOn (by decide)
      reads_hole := fun _ h => Value.noConfusion h
      reads_template := fun _ _ => same
      restores := fun _ _ _ => ⟨_, _, b₁, found, left, failed⟩
      decides := same.trans decided.symm }
  · have absent : (b.scanner.token.kind == .mustacheOpen) = false :=
      not_isAt st (by decide) other
    have same := attributeValue_of_other absent
    have elsewhere := beq_eq_false_iff_ne.mp absent
    exact {
      stores := ⟨b', same.trans template, grown⟩
      hole_iff := iff_of_false (fun ⟨_, h⟩ => Value.noConfusion h) fun h => elsewhere h.1
      reads_hole := fun _ h => Value.noConfusion h
      reads_template := fun _ _ => same
      restores := fun _ _ h => absurd h elsewhere
      decides := same.trans decided.symm }

/-- In front of the rest of a line, a value is tried without a trace, if there are indices for its
nodes. -/
theorem speculates (st : Stands b e given)
    (room : b.nodes.size + (Reader.value e.token given).value.node.size ≤ wordBound) :
    Speculates b (Reader.value e.token given).value (Reader.value e.token given).findings := by
  by_cases lone : Reader.IsLone e.token given
  · obtain ⟨t, ts, rfl, opening, alone⟩ := lone
    rw [Reader.value_of_lone opening alone] at room ⊢
    exact speculates_hole st opening alone room
  · rw [Reader.value_of_template lone] at room ⊢
    exact speculates_template st lone room

end Build

/-! ## 5. Where a value starts -/

namespace Reader

variable {stop t : Token} {ts given : List Token} {sigil eq : Leaf} {v : Value} {a : Attribute}

/-- An optional part that is there was read behind its first token. -/
theorem exists_of_behind {α : Type} {kind : Kind} {r : Reader α} {l : Leaf} {part : α}
    (h : (behind kind r stop given).value = some (l, part)) :
    ∃ t ts, given = t :: ts ∧ t.kind = kind ∧ l = .ofToken t ∧ part = (r stop ts).value := by
  rcases head_cases kind given with ⟨t, ts, rfl, is⟩ | other
  · rw [behind_of_kind r is] at h
    obtain ⟨leaf, value⟩ := Prod.mk.inj (Option.some.inj h)
    exact ⟨t, ts, rfl, is, leaf.symm, value.symm⟩
  · rw [behind_of_other r other] at h
    exact absurd h (by simp)

/-- Behind the first equals sign of some tokens, with its leaf, this value is read. -/
def Assigns (stop : Token) (ts : List Token) (eq : Leaf) (v : Value) : Prop :=
  ∃ front t given, ts = front ++ t :: given ∧ (∀ u ∈ front, u.kind ≠ .equals) ∧ t.kind = .equals
    ∧ eq = .ofToken t ∧ v = (value stop given).value

theorem assigns_of_behind (skips : Skips .equals ts given)
    (h : (behind .equals value stop given).value = some (eq, v)) : Assigns stop ts eq v := by
  obtain ⟨front, rfl, none⟩ := skips
  obtain ⟨t, given, rfl, is, leaf, read⟩ := exists_of_behind h
  exact ⟨front, t, given, rfl, none, is, leaf, read⟩

/-- In front of an equals sign that some tokens have, a value is there. -/
theorem exists_value_behind (stop : Token) (skips : Skips .equals ts given)
    (next : Before [.equals] given) (sign : ∃ t ∈ ts, t.kind = .equals) :
    ∃ eq v, (behind .equals value stop given).value = some (eq, v) := by
  obtain ⟨front, rfl, none⟩ := skips
  obtain ⟨t, ht, is⟩ := sign
  cases given with
  | nil => exact absurd is (none t (by simpa using ht))
  | cons u us =>
    rw [behind_of_kind value (List.mem_singleton.mp (next u rfl))]
    exact ⟨_, _, rfl⟩

/-- The name of an attribute goes on to the first equals sign. -/
theorem name_upTo_equals (stop : Token) (ts : List Token) :
    Skips .equals ts (name (.ofList [.equals]) stop ts).rest
      ∧ Before [.equals] (name (.ofList [.equals]) stop ts).rest :=
  ⟨spares_name rfl stop ts, readsUpTo_name [.equals] stop ts⟩

/-- The name of a property and its trigger together go on to the first equals sign. -/
theorem trigger_upTo_equals (stop : Token) (ts : List Token) :
    Skips .equals ts (behind .atSign (name (.ofList [.equals])) stop
        (name (.ofList [.equals, .atSign]) stop ts).rest).rest
      ∧ Before [.equals] (behind .atSign (name (.ofList [.equals])) stop
        (name (.ofList [.equals, .atSign]) stop ts).rest).rest := by
  have binding : Spares .equals (name (.ofList [.equals, .atSign])) := spares_name rfl
  have trigger : Spares .equals (behind .atSign (name (.ofList [.equals]))) :=
    spares_behind (by decide) (spares_name rfl)
  have swapped : Before [.atSign, .equals] (name (.ofList [.equals, .atSign]) stop ts).rest := by
    intro t ht
    have := readsUpTo_name [.equals, .atSign] stop ts t ht
    simpa [or_comm] using this
  exact ⟨(binding stop ts).trans (trigger stop _),
    before_behind stop (readsUpTo_name [.equals]) swapped⟩

theorem assigns_attributeBehind (h : (attributeBehind sigil stop ts).value.value = some (eq, v)) :
    Assigns stop ts eq v := assigns_of_behind (name_upTo_equals stop ts).1 h

theorem assigns_propertyBehind (h : (propertyBehind sigil stop ts).value.value = some (eq, v)) :
    Assigns stop ts eq v := assigns_of_behind (trigger_upTo_equals stop ts).1 h

/-- What opens with one of two sigils and has an equals sign is an attribute with a value. -/
theorem exists_value_content (stop : Token)
    (opens : t.kind = .hashSign ∨ t.kind = .percentSign) (sign : ∃ u ∈ ts, u.kind = .equals) :
    ∃ a eq v, (content stop (t :: ts)).value = .simple (.attribute a)
      ∧ a.value = some (eq, v) := by
  rcases opens with is | is
  · obtain ⟨skips, next⟩ := name_upTo_equals stop ts
    obtain ⟨eq, v, value⟩ := exists_value_behind stop skips next sign
    refine ⟨(attributeBehind (.ofToken t) stop ts).value, eq, v, ?_, value⟩
    simp only [content, is]
    rfl
  · obtain ⟨skips, next⟩ := trigger_upTo_equals stop ts
    obtain ⟨eq, v, value⟩ := exists_value_behind stop skips next sign
    refine ⟨(propertyBehind (.ofToken t) stop ts).value, eq, v, ?_, value⟩
    simp only [content, is]
    rfl

/-- An attribute with a value opens with one of two sigils, and behind the first equals sign of its
line the value is read. -/
theorem assigns_content (read : (content stop given).value = .simple (.attribute a))
    (h : a.value = some (eq, v)) :
    (∀ t ∈ given.head?, t.kind ≠ .comment) ∧ Assigns stop given eq v := by
  cases given with
  | nil => exact Content.noConfusion read fun h => Body.noConfusion h
  | cons t ts =>
    have opened (sign : Kind) (is : t.kind = sign) (comment : sign ≠ .comment)
        (equals : sign ≠ .equals) (assigns : Assigns stop ts eq v) :
        (∀ u ∈ (t :: ts).head?, u.kind ≠ .comment) ∧ Assigns stop (t :: ts) eq v := by
      obtain ⟨front, u, given, rfl, none, rest⟩ := assigns
      refine ⟨by simpa [is] using comment, t :: front, u, given, rfl, ?_, rest⟩
      exact List.forall_mem_cons.mpr ⟨is ▸ equals, none⟩
    rw [content] at read
    dsimp only at read
    split at read
    case h_2 is =>
      obtain rfl : (attributeBehind (.ofToken t) stop ts).value = a := by
        simpa [bind, andThen, pure, done] using read
      exact opened .hashSign is (by decide) (by decide) (assigns_attributeBehind h)
    case h_3 is =>
      obtain rfl : (propertyBehind (.ofToken t) stop ts).value = a := by
        simpa [bind, andThen, pure, done] using read
      exact opened .percentSign is (by decide) (by decide) (assigns_propertyBehind h)
    all_goals exact absurd read (by simp [bind, andThen, pure, done, unreadable])

/-- The value that is chosen where some tokens are left of a line. -/
structure Chosen (stop : Token) (given : List Token) (v : Value) : Prop where
  hole_iff : (∃ m, v = .mustache m) ↔ IsLone stop given
  eq_hole : ∀ m, v = .mustache m → m = (hole stop given).value
  eq_template : ∀ text, v = .template text → text = (template .empty stop given).value

theorem chosen_value (stop : Token) (given : List Token) :
    Chosen stop given (value stop given).value := by
  by_cases lone : IsLone stop given
  · have here := lone
    obtain ⟨t, ts, rfl, opening, alone⟩ := lone
    rw [value_of_lone opening alone]
    refine ⟨iff_of_true ⟨_, rfl⟩ here, ?_, fun _ h => Value.noConfusion h⟩
    rintro m h
    rw [hole_of_open opening, Value.mustache.inj h]
  · rw [value_of_template lone]
    refine ⟨iff_of_false (fun ⟨_, h⟩ => Value.noConfusion h) lone, fun _ h => Value.noConfusion h,
      ?_⟩
    rintro text h
    rw [Value.template.inj h]

end Reader

/-- Standing in front of some tokens, the machine passes those in front and stands before the
others. -/
theorem Stands.exists_behind {b : Builder} {e : Scanner} {front given : List Token}
    (st : Stands b e (front ++ given)) :
    ∃ s, b.scanner.Passes front s ∧ s.Passes given e
      ∧ ∀ nodes findings, Stands ⟨s, nodes, findings⟩ e given := by
  obtain ⟨s, passed, rest⟩ := Scanner.passes_append.mp st.passes
  refine ⟨s, passed, rest, fun nodes findings => ⟨rest, ?_, ?_, st.ends, st.within.passes passed⟩⟩
  · exact fun t ht => st.inner t (List.mem_append_right front ht)
  · exact fun t ht => st.solid t (List.mem_append_right front ht)

/-! ## 6. Every value of a text -/

section

variable {variant : Variant} {text : List Char} {l : TokenLine} {f : Frame} {a : Attribute}
  {eq : Leaf} {v : Value}

/-- An attribute of a file was read from the tokens of the line with its number. -/
theorem exists_content_of_attribute
    (h : .simple f (.attribute a) ∈ Line.withinAll (SourceFile.ofText variant text).lines) :
    ∃ l, (TokenLine.ofText text)[f.start.line]? = some l
      ∧ (Reader.content l.stop l.body).value = .simple (.attribute a) := by
  obtain ⟨l, at_k, row⟩ := exists_tokenLine h
  exact ⟨l, at_k, content_of_simple row.symm⟩

/-- A line with one of the two sigils and an equals sign is an attribute with a value. -/
theorem exists_attribute {k : Nat} {t : Token} {ts : List Token} (variant : Variant)
    (at_k : (TokenLine.ofText text)[k]? = some l) (body : l.body = t :: ts)
    (opens : t.kind = .hashSign ∨ t.kind = .percentSign) (sign : ∃ u ∈ ts, u.kind = .equals) :
    ∃ f a eq v, .simple f (.attribute a) ∈ Line.withinAll (SourceFile.ofText variant text).lines
      ∧ f.start.line = k ∧ a.value = some (eq, v) := by
  obtain ⟨a, eq, v, read, value⟩ := Reader.exists_value_content l.stop opens sign
  obtain ⟨m, hm, number, row⟩ := exists_line_of_tokenLine variant at_k
  rw [Row.ofTokenLine, body, read] at row
  cases m with
  | element f t ls => exact Row.noConfusion row
  | simple f b =>
    obtain ⟨-, rfl⟩ := Row.simple.inj row
    exact ⟨f, a, eq, v, hm, number, value⟩

/-- In front of some last tokens of a line, coming from the start of the text, the machine tries
the value that is read from them. -/
theorem exists_speculates {k : Nat} {front given : List Token} (short : byteLength text < wordBound)
    (at_k : (TokenLine.ofText text)[k]? = some l) (split : l.body = front ++ given)
    (comment : ∀ t ∈ l.body.head?, t.kind ≠ .comment) :
    ∃ before s e, (Scanner.start text).Passes (before ++ (l.indent.toList ++ front)) s
      ∧ s.Passes given e ∧ e.token = l.stop
      ∧ ∀ nodes findings, nodes.size + (Reader.value l.stop given).value.node.size ≤ wordBound →
          Build.Speculates ⟨s, nodes, findings⟩ (Reader.value l.stop given).value
            (Reader.value l.stop given).findings := by
  obtain ⟨last, reads, -⟩ := Scanner.reads_ofText text
  obtain ⟨q, e, ts, line, passed, -⟩ := reads.line_at at_k
  have within := ((Scanner.within_start short).passes passed).scan.pastIndent
  have st : Stands ⟨q.scan.pastIndent, .empty, []⟩ e l.body :=
    Build.stands_body line rfl within comment
  rw [split] at st
  obtain ⟨s, passed_front, rest, stands⟩ := st.exists_behind
  have indent := Scanner.passes_indent passed_front
  rw [← line.indent] at indent
  -- The token that the scanner stands on in front of the line counts as passed, too.
  have start : q.Passes (q.token :: (l.indent.toList ++ front)) s := ⟨rfl, indent⟩
  refine ⟨ts ++ [q.token], s, e, ?_, rest, line.stop, ?_⟩
  · rw [List.append_assoc]
    exact Scanner.passes_append.mpr ⟨q, passed, start⟩
  · intro nodes findings room
    rw [← line.stop] at room ⊢
    exact Build.speculates (stands nodes findings) room

end

/-- A line with a number sign or a percent sign in front and an equals sign has a value, and the
value starts behind the first equals sign. It is a hole, if a hole
that is read there stops on the end of the line, or else the template that is read there. The
machine, standing there with anything stored and reported, finds this value, and an attempt that
fails leaves it as it was, as long as there are indices for the nodes. So a text is read to the same
tree, and with the same findings, if it is decided first what each value is. -/
theorem value_decided (variant : Variant) (text : List Char) :
    SourceFile.ofTextWith Reader.decidedValue variant text = SourceFile.ofText variant text
      ∧ (∀ (k : Nat) (l : TokenLine) (sigil : Token) (ts : List Token),
          (TokenLine.ofText text)[k]? = some l → l.body = sigil :: ts →
          sigil.kind = .hashSign ∨ sigil.kind = .percentSign → (∃ u ∈ ts, u.kind = .equals) →
          ∃ f a eq v,
            .simple f (.attribute a) ∈ Line.withinAll (SourceFile.ofText variant text).lines
              ∧ f.start.line = k ∧ a.value = some (eq, v))
      ∧ (∀ f a eq v,
          .simple f (.attribute a) ∈ Line.withinAll (SourceFile.ofText variant text).lines →
          a.value = some (eq, v) →
          ∃ l front t given, (TokenLine.ofText text)[f.start.line]? = some l
            ∧ l.body = front ++ t :: given ∧ (∀ u ∈ front, u.kind ≠ .equals) ∧ t.kind = .equals
            ∧ eq = .ofToken t ∧ Reader.Chosen l.stop given v
            ∧ (byteLength text < wordBound →
                ∃ before s e,
                  (Scanner.start text).Passes (before ++ (l.indent.toList ++ (front ++ [t]))) s
                    ∧ s.Passes given e ∧ e.token = l.stop
                    ∧ ∀ nodes findings, nodes.size + v.node.size ≤ wordBound →
                      Build.Speculates ⟨s, nodes, findings⟩ v
                        (Reader.value l.stop given).findings))
      ∧ (byteLength text < wordBound → (SourceFile.ofText variant text).root.size ≤ wordBound →
          ∃ b, build text = Part.some (.ok (Node.rootAt 0
                (SourceFile.ofTextWith Reader.decidedValue variant text).root, b))
            ∧ b.nodes.values
                = (SourceFile.ofTextWith Reader.decidedValue variant text).root.entries 0 none
            ∧ b.findings
                = (SourceFile.ofTextWith Reader.decidedValue variant text).diagnostics) := by
  have same := ofTextWith_decidedValue variant text
  refine ⟨same, ?_, ?_, ?_⟩
  · intro k l sigil ts at_k body opens sign
    exact exists_attribute variant at_k body opens sign
  · intro f a eq v h value
    obtain ⟨l, at_k, read⟩ := exists_content_of_attribute h
    obtain ⟨comment, front, t, given, split, first, is, leaf, rfl⟩ :=
      Reader.assigns_content read value
    refine ⟨l, front, t, given, at_k, split, first, is, leaf, Reader.chosen_value l.stop given, ?_⟩
    intro short
    rw [List.append_cons] at split
    exact exists_speculates short at_k split comment
  · intro short few
    rw [same]
    exact exists_build variant text short few

end OffsideMarkup
