/-
OffsideMarkup.Proofs.ReaderShift — readers do not look at where they are.

A reader chooses by the kinds of its tokens and by nothing else. Given the same tokens further down
in a text it makes the same of them: what it answers, what it leaves and what it reports is shifted
as the tokens are. `Moves` says this of two readers, of which the second is the first one applied to
something that is shifted already; there is one lemma for each reader, and a composition moves if
its parts do (`Moves.bind`).
-/
import OffsideMarkup.Proofs.ReaderLaws
import OffsideMarkup.Proofs.Shift

namespace OffsideMarkup

/-- The second reading is the first one, shifted; `item` is how values are shifted. -/
structure Reading.Shifted {α : Type} (base : Location) (item : α → α) {given given' : List Token}
    (a : Reading α given) (a' : Reading α given') : Prop where
  value : a'.value = item a.value
  rest : a'.rest = a.rest.map (·.shift base)
  findings : a'.findings = a.findings.map (·.shift base)

/-- With more tokens in front a reading is as it was. -/
theorem Reading.Shifted.widen {α : Type} {base : Location} {item : α → α}
    {given given' more more' : List Token} {a : Reading α given} {a' : Reading α given'}
    (h : a.Shifted base item a') (suffix : a.rest <:+ more) (suffix' : a'.rest <:+ more') :
    Reading.Shifted base item (⟨a.value, a.rest, a.findings, suffix⟩ : Reading α more)
      (⟨a'.value, a'.rest, a'.findings, suffix'⟩ : Reading α more') :=
  ⟨h.value, h.rest, h.findings⟩

namespace Reader

variable {α β : Type} {base : Location} {stop t : Token} {ts given : List Token}

/-- Given tokens that are shifted, the second reader does what the first one does, shifted. -/
def Moves (base : Location) (item : α → α) (r r' : Reader α) : Prop :=
  ∀ (stop : Token) (given : List Token),
    (r stop given).Shifted base item (r' (stop.shift base) (given.map (·.shift base)))

/-! ## 1. Compositions -/

theorem moves_pure {item : α → α} {a a' : α} (h : a' = item a) :
    Moves base item (pure a) (pure a') := fun _ _ => ⟨h, rfl, rfl⟩

theorem Moves.bind {item : α → α} {item' : β → β} {r r' : Reader α} {next next' : α → Reader β}
    (first : Moves base item r r') (later : ∀ a, Moves base item' (next a) (next' (item a))) :
    Moves base item' (r >>= next) (r' >>= next') := by
  intro stop given
  have a := first stop given
  have b := later (r stop given).value stop (r stop given).rest
  rw [← a.value, ← a.rest] at b
  refine ⟨b.value, b.rest, ?_⟩
  show (r' _ _).findings ++ _ = ((r stop given).findings ++ _).map _
  rw [a.findings, b.findings, List.map_append]

/-! ## 2. Looking and taking -/

variable (base)

theorem headD_shift (stop : Token) (given : List Token) :
    (given.map (·.shift base)).headD (stop.shift base) = (given.headD stop).shift base := by
  cases given <;> rfl

theorem moves_current : Moves base (·.shift base) current current :=
  fun stop given => ⟨headD_shift base stop given, rfl, rfl⟩

theorem moves_here : Moves base (·.shift base) here here :=
  (moves_current base).bind fun _ => moves_pure rfl

theorem moves_atEnd : Moves base id atEnd atEnd := by
  intro stop given
  refine ⟨?_, rfl, rfl⟩
  cases given <;> rfl

theorem moves_report (message : Message) (args : List String) :
    Moves base id (report message args) (report message args) := by
  intro stop given
  refine ⟨rfl, rfl, congrArg ([·]) ?_⟩
  rw [headD_shift, Token.shift_extent, Diagnostic.ofExtent_shift]

theorem moves_eat (kind : Kind) : Moves base (Option.map (·.shift base)) (eat kind) (eat kind) := by
  intro stop given
  cases given with
  | nil => exact ⟨rfl, rfl, rfl⟩
  | cons t ts =>
    rw [List.map_cons, eat, eat]
    show Reading.Shifted _ _ _ (if t.kind = kind then _ else _)
    split <;> exact ⟨rfl, rfl, rfl⟩

/-! ## 3. Single leaves -/

theorem moves_expect (kind : Kind) : Moves base (·.shift base) (expect kind) (expect kind) := by
  refine (moves_eat base kind).bind fun taken => ?_
  cases taken with
  | some leaf => exact moves_pure rfl
  | none =>
    exact (moves_report base _ _).bind fun _ => (moves_here base).bind fun _ => moves_pure rfl

theorem moves_literal (stops : KindSet) :
    Moves base (·.shift base) (literal stops) (literal stops) := by
  intro stop given
  refine ⟨?_, ?_, rfl⟩
  · show Leaf.literal ((given.map (·.shift base)).headD (stop.shift base)).start _ = _
    rw [headD_shift, List.takeWhile_map]
    exact Leaf.literal_shift base _ _
  · show (given.map (·.shift base)).dropWhile _ = _
    rw [List.dropWhile_map]
    rfl

theorem moves_name (stops : KindSet) : Moves base (·.shift base) (name stops) (name stops) := by
  refine (moves_current base).bind fun next => (moves_atEnd base).bind fun atEnd => ?_
  show Moves _ _ _ (if (atEnd || stops.has next.kind) = true then _ else _)
  split
  · exact (moves_report base _ _).bind fun _ => moves_pure rfl
  · exact moves_literal base stops

/-! ## 4. Optional parts and chains -/

theorem Moves.behind {base : Location} {item : α → α} {r : Reader α} (h : Moves base item r r)
    (kind : Kind) :
    Moves base (Option.map (shiftPair item base)) (behind kind r) (behind kind r) := by
  refine (moves_eat base kind).bind fun taken => ?_
  cases taken with
  | some leaf => exact h.bind fun _ => moves_pure rfl
  | none => exact moves_pure rfl

theorem Moves.dotted {base : Location} {item : α → α} {r : Reader α} (h : Moves base item r r) :
    Moves base (List.map (shiftPair item base)) (dotted r) (dotted r) := by
  intro stop given
  induction given using dotted.induct r stop with
  | case1 =>
    rw [List.map_nil, dotted_of_other r (by simp), dotted_of_other r (by simp)]
    exact ⟨rfl, rfl, rfl⟩
  | case2 t ts dot first later =>
    have here := h stop ts
    have later : Reading.Shifted base _ (Reader.dotted r stop first.rest)
      (Reader.dotted r (stop.shift base) (first.rest.map _)) := later
    rw [← here.rest] at later
    rw [List.map_cons, dotted_of_dot r dot, dotted_of_dot r (t := t.shift base) dot]
    refine ⟨congrArg₂ List.cons (congrArg (Prod.mk _) here.value) later.value, later.rest, ?_⟩
    show (r _ _).findings ++ _ = (_ ++ _ : List Diagnostic).map _
    rw [here.findings, later.findings, List.map_append]
  | case3 t ts dot =>
    rw [List.map_cons, dotted_of_other r (by simpa using dot),
      dotted_of_other r (by simpa using dot)]
    exact ⟨rfl, rfl, rfl⟩

theorem Moves.chain {base : Location} {item : α → α} {r : Reader α} (h : Moves base item r r) :
    Moves base (Chain.shift · item base) (chain r) (chain r) :=
  h.bind fun _ => h.dotted.bind fun _ => moves_pure rfl

/-! ## 5. Holes, templates and values -/

theorem moves_mustacheBehind (t : Token) :
    Moves base (·.shift base) (mustacheBehind (.ofToken t))
      (mustacheBehind (.ofToken (t.shift base))) := by
  have path := (moves_name base (.ofList [.dot, .equals, .mustacheClose])).chain
  have fallback := (moves_literal base (.ofList [.mustacheClose])).behind .equals
  exact path.bind fun _ => fallback.bind fun _ => (moves_expect base .mustacheClose).bind fun _ =>
    moves_pure rfl

theorem moves_parts (stops : KindSet) :
    Moves base (List.map (·.shift base)) (parts stops) (parts stops) := by
  intro stop given
  induction given using parts.induct stops stop with
  | case1 =>
    rw [List.map_nil, parts_of_stop (by simp), parts_of_stop (by simp)]
    exact ⟨rfl, rfl, rfl⟩
  | case2 t ts h =>
    rw [List.map_cons, parts_of_stop (by simpa using h), parts_of_stop (by simpa using h)]
    exact ⟨rfl, rfl, rfl⟩
  | case3 t ts go h hole later =>
    have here := moves_mustacheBehind base t stop ts
    have later : Reading.Shifted base _ (parts stops stop hole.rest)
      (parts stops (stop.shift base) (hole.rest.map _)) := later
    rw [← here.rest] at later
    rw [List.map_cons, parts_of_hole (by simpa using go) h,
      parts_of_hole (t := t.shift base) (by simpa using go) h]
    refine ⟨congrArg₂ List.cons (congrArg TemplatePart.mustache here.value) later.value,
      later.rest, ?_⟩
    show (mustacheBehind _ _ _).findings ++ _ = (_ ++ _ : List Diagnostic).map _
    rw [here.findings, later.findings, List.map_append]
  | case4 t ts go h inside later =>
    have rest : (ts.map (·.shift base)).dropWhile (inPiece stops)
        = (ts.dropWhile (inPiece stops)).map (·.shift base) := List.dropWhile_map ..
    have later : Reading.Shifted base _ (parts stops stop (ts.dropWhile (inPiece stops)))
      (parts stops (stop.shift base) ((ts.dropWhile (inPiece stops)).map _)) := later
    rw [← rest] at later
    rw [List.map_cons, parts_of_literal (by simpa using go) h,
      parts_of_literal (t := t.shift base) (by simpa using go) h]
    refine ⟨congrArg₂ List.cons (congrArg TemplatePart.literal ?_) later.value, later.rest,
      later.findings⟩
    rw [List.takeWhile_map]
    exact Leaf.literal_shift base t.start (t :: ts.takeWhile (inPiece stops))

theorem moves_template (stops : KindSet) :
    Moves base (·.shift base) (template stops) (template stops) :=
  (moves_here base).bind fun _ => (moves_parts base stops).bind fun _ => moves_pure rfl

/-- Whether a hole is all there is does not depend on where it is. -/
theorem isLone_shift :
    IsLone (stop.shift base) (given.map (·.shift base)) ↔ IsLone stop given := by
  cases given with
  | nil => simp [IsLone]
  | cons t ts =>
    have rest : (mustacheBehind (.ofToken (t.shift base)) (stop.shift base)
        (ts.map (·.shift base))).rest = _ := (moves_mustacheBehind base t stop ts).rest
    constructor
    · rintro ⟨u, us, split, opening, lone⟩
      obtain ⟨rfl, rfl⟩ := List.cons.inj split
      rw [rest, List.map_eq_nil_iff] at lone
      exact ⟨t, ts, rfl, opening, lone⟩
    · rintro ⟨u, us, split, opening, lone⟩
      obtain ⟨rfl, rfl⟩ := List.cons.inj split
      refine ⟨_, _, rfl, opening, ?_⟩
      rw [rest, lone, List.map_nil]

theorem moves_value : Moves base (·.shift base) value value := by
  intro stop given
  by_cases h : IsLone stop given
  · obtain ⟨t, ts, rfl, opening, lone⟩ := h
    have hole := moves_mustacheBehind base t stop ts
    have lone' : (mustacheBehind (.ofToken (t.shift base)) (stop.shift base)
        (ts.map (·.shift base))).rest = [] := by
      have := hole.rest
      rwa [lone] at this
    rw [List.map_cons, value_of_lone opening lone, value_of_lone (t := t.shift base) opening lone']
    exact ⟨congrArg Value.mustache hole.value, hole.rest, hole.findings⟩
  · have text := moves_template base .empty stop given
    rw [value_of_template h, value_of_template (mt (isLone_shift base).mp h)]
    exact ⟨congrArg Value.template text.value, text.rest, text.findings⟩

/-! ## 6. The forms of a line -/

theorem moves_tagBehind (t : Token) :
    Moves base (·.shift base) (tagBehind (.ofToken t))
      (tagBehind (.ofToken (t.shift base))) := by
  have name := moves_name base (.ofList [.dot, .hashSign])
  have classes := (moves_template base (.ofList [.dot, .hashSign])).chain.behind .dot
  have reference := (moves_name base .empty).behind .hashSign
  exact name.bind fun _ => classes.bind fun _ => reference.bind fun _ => moves_pure rfl

theorem moves_attributeBehind (t : Token) :
    Moves base (·.shift base) (attributeBehind (.ofToken t))
      (attributeBehind (.ofToken (t.shift base))) := by
  have binding := moves_name base (.ofList [.equals])
  exact binding.bind fun _ => ((moves_value base).behind .equals).bind fun _ => moves_pure rfl

theorem moves_propertyBehind (t : Token) :
    Moves base (·.shift base) (propertyBehind (.ofToken t))
      (propertyBehind (.ofToken (t.shift base))) := by
  have binding := moves_name base (.ofList [.equals, .atSign])
  have trigger := (moves_name base (.ofList [.equals])).behind .atSign
  exact binding.bind fun _ => trigger.bind fun _ =>
    ((moves_value base).behind .equals).bind fun _ => moves_pure rfl

theorem moves_handlerBehind (t : Token) :
    Moves base (·.shift base) (handlerBehind (.ofToken t))
      (handlerBehind (.ofToken (t.shift base))) := by
  have event := moves_name base (.ofList [.dot, .equals])
  have modifiers := (moves_name base (.ofList [.dot, .equals])).chain.behind .dot
  have action := moves_name base (.ofList [.colon])
  have parameter := (moves_template base .empty).behind .colon
  exact event.bind fun _ => modifiers.bind fun _ => (moves_expect base .equals).bind fun _ =>
    action.bind fun _ => parameter.bind fun _ => moves_pure rfl

def Content.shift (c : Content) (base : Location) : Content :=
  match c with
  | .element tag => .element (tag.shift base)
  | .simple body => .simple (body.shift base)

theorem Moves.declares {base : Location} {item : α → α} {r r' : Reader α} (h : Moves base item r r')
    (form form' : α → Content) (same : ∀ a, form' (item a) = (form a).shift base) :
    Moves base (·.shift base) (do return form (← r)) (do return form' (← r')) :=
  h.bind fun a => moves_pure (same a)

theorem moves_unreadable (kind : Kind) :
    Moves base (·.shift base) (unreadable kind) (unreadable kind) :=
  (moves_report base _ _).bind fun _ => (moves_literal base .empty).bind fun _ => moves_pure rfl

theorem moves_content : Moves base (·.shift base) content content := by
  intro stop given
  cases given with
  | nil => exact ⟨rfl, rfl, rfl⟩
  | cons t ts =>
    have tag := (moves_tagBehind base t).declares .element .element fun _ => rfl
    have plain := (moves_attributeBehind base t).declares
      (.simple <| .attribute ·) (.simple <| .attribute ·) fun _ => rfl
    have property := (moves_propertyBehind base t).declares
      (.simple <| .attribute ·) (.simple <| .attribute ·) fun _ => rfl
    have handler := (moves_handlerBehind base t).declares
      (.simple <| .handler ·) (.simple <| .handler ·) fun _ => rfl
    have text := (moves_template base .empty).declares
      (.simple <| .text (.ofToken t) ·) (.simple <| .text (.ofToken (t.shift base)) ·) fun _ => rfl
    have mountingPoint := (moves_name base .empty).declares
      (.simple <| .mountingPoint (.ofToken t) ·)
      (.simple <| .mountingPoint (.ofToken (t.shift base)) ·) fun _ => rfl
    rw [List.map_cons, content, content]
    dsimp only [Token.kind_shift]
    split
    · exact (tag stop ts).widen _ _
    · exact (plain stop ts).widen _ _
    · exact (property stop ts).widen _ _
    · exact (handler stop ts).widen _ _
    · exact (text stop ts).widen _ _
    · exact (text stop ts).widen _ _
    · exact (mountingPoint stop ts).widen _ _
    · exact (mountingPoint stop ts).widen _ _
    · exact ⟨rfl, rfl, rfl⟩
    · exact moves_unreadable base _ stop (t :: ts)

end Reader

/-! ## 7. Lines -/

def TokenLine.shift (l : TokenLine) (base : Location) : TokenLine :=
  ⟨l.indent.map (·.shift base), l.body.map (·.shift base), l.stop.shift base⟩

theorem TokenLine.start_shift (l : TokenLine) (base : Location) :
    (l.shift base).start = l.start.shift base := by
  obtain ⟨indent, body, stop⟩ := l
  cases indent with
  | some t => rfl
  | none => exact congrArg Token.start (Reader.headD_shift base stop body)

/-- A line that stands further down is read the same. -/
theorem Row.ofTokenLine_shift (l : TokenLine) (base : Location) :
    ofTokenLine (l.shift base) = (ofTokenLine l).shift base := by
  have start := l.start_shift base
  obtain ⟨indent, body, stop⟩ := l
  have content := Reader.moves_content base stop body
  have leaf : (indent.map (·.shift base)).map Leaf.ofToken
      = (indent.map Leaf.ofToken).map (·.shift base) := by
    cases indent <;> rfl
  rw [TokenLine.shift] at start ⊢
  rw [ofTokenLine, ofTokenLine, start]
  dsimp only
  rw [leaf, content.value, content.findings]
  cases (Reader.content stop body).value <;> rfl

end OffsideMarkup
