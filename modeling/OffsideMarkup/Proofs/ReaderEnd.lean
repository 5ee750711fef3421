/-
OffsideMarkup.Proofs.ReaderEnd — the readers of a line do not look at the characters of its end.

A reader is given the token that ends the line for its position only. Two tokens that start at the
same place and look the same to an editor (`EndsAlike`) make no difference to what is read, to where
it stands and to what is left, and what is reported differs in its bytes only: a finding against the
end of the line takes its bytes from there (`Blind`). A line feed in the place of another break is
such a token (`endsAlike_unify`), for a break leaves its line at once and shows at its start alone.
-/
import OffsideMarkup.Proofs.LineEnds

namespace OffsideMarkup

/-! ## 1. Findings without their bytes -/

def Related.withoutBytes (r : Related) : Related := { r with span := ⟨0, 0⟩ }

/-- What an editor shows of a finding: all but the bytes that it is about. -/
def Diagnostic.withoutBytes (d : Diagnostic) : Diagnostic :=
  { d with
    span := ⟨0, 0⟩
    related := d.related.map Related.withoutBytes }

/-- Tokens to end a line with, between which only bytes make a difference. -/
structure EndsAlike (stop stop' : Token) : Prop where
  start : stop'.start = stop.start
  region : stop'.extent.region = stop.extent.region

/-- A break ends its line, so that it shows at its start, whatever its characters are. -/
theorem region_of_lineBreak {t : Token} (h : t.kind = .lineBreak) :
    t.extent.region = ⟨t.start.position, t.start.position⟩ := by
  have crosses : t.extent.crossesLine = true := by
    rw [Extent.crossesLine, Token.extent, Token.stop, if_pos h]
    simp [Location.nextLine, Location.after]
  rw [Extent.region, Extent.endColumn, if_pos crosses]
  rfl

theorem endsAlike_unify {t : Token} (ends : t.kind = .lineBreak ∨ t.lexeme = []) :
    EndsAlike t t.unify := by
  refine ⟨rfl, ?_⟩
  rcases ends with brk | nothing
  · rw [region_of_lineBreak brk, region_of_lineBreak (t := t.unify) brk]
    rfl
  · obtain ⟨kind, start, trivia, lexeme⟩ := t
    obtain rfl : lexeme = [] := nothing
    rfl

/-- What the next token shows, which may be the end of the line. -/
theorem EndsAlike.headD {stop stop' : Token} (alike : EndsAlike stop stop') (given : List Token) :
    EndsAlike (given.headD stop) (given.headD stop') := by
  cases given with
  | nil => exact alike
  | cons t ts => exact ⟨rfl, rfl⟩

/-! ## 2. Readings that agree -/

/-- Two readings with the same value and the same tokens left, whose findings show the same. -/
structure Reading.Agree {α : Type} {given given' : List Token} (a : Reading α given)
    (a' : Reading α given') : Prop where
  value : a'.value = a.value
  rest : a'.rest = a.rest
  findings : a'.findings.map Diagnostic.withoutBytes = a.findings.map Diagnostic.withoutBytes

/-- With more tokens in front two readings agree as before. -/
theorem Reading.Agree.widen {α : Type} {given given' more more' : List Token} {a : Reading α given}
    {a' : Reading α given'} (h : a.Agree a') (suffix : a.rest <:+ more)
    (suffix' : a'.rest <:+ more') :
    Reading.Agree (⟨a.value, a.rest, a.findings, suffix⟩ : Reading α more)
      (⟨a'.value, a'.rest, a'.findings, suffix'⟩ : Reading α more') :=
  ⟨h.value, h.rest, h.findings⟩

namespace Reader

variable {α β : Type} {stop stop' t : Token} {ts given : List Token}

/-- Of the end of the line the reader sees no more than where it is. -/
def Blind (r : Reader α) : Prop :=
  ∀ stop stop' given, EndsAlike stop stop' → (r stop given).Agree (r stop' given)

/-! ## 3. Compositions -/

theorem blind_pure (a : α) : Blind (pure a : Reader α) := fun _ _ _ _ => ⟨rfl, rfl, rfl⟩

theorem Blind.bind {r : Reader α} {next : α → Reader β} (first : Blind r)
    (later : ∀ a, Blind (next a)) : Blind (r >>= next) := by
  intro stop stop' given alike
  have a := first stop stop' given alike
  have b : Reading.Agree (next (r stop given).value stop (r stop given).rest)
      (next (r stop' given).value stop' (r stop' given).rest) := by
    rw [a.value, a.rest]
    exact later _ stop stop' _ alike
  refine ⟨b.value, b.rest, ?_⟩
  show ((r stop' given).findings ++ _).map _ = ((r stop given).findings ++ _).map _
  rw [List.map_append, List.map_append, a.findings, b.findings]

/-! ## 4. Readers -/

theorem blind_here : Blind here := fun _ _ given alike => ⟨(alike.headD given).start, rfl, rfl⟩

theorem blind_report (message : Message) (args : List String) : Blind (report message args) := by
  intro stop stop' given alike
  refine ⟨rfl, rfl, congrArg ([·]) ?_⟩
  rw [Diagnostic.ofExtent, (alike.headD given).region]
  rfl

theorem blind_eat (kind : Kind) : Blind (eat kind) := fun _ _ _ _ => ⟨rfl, rfl, rfl⟩

theorem blind_expect (kind : Kind) : Blind (expect kind) := by
  refine (blind_eat kind).bind fun taken => ?_
  cases taken with
  | some leaf => exact blind_pure leaf
  | none => exact (blind_report _ _).bind fun _ => blind_here.bind fun _ => blind_pure _

theorem Blind.behind {r : Reader α} (h : Blind r) (kind : Kind) : Blind (behind kind r) := by
  refine (blind_eat kind).bind fun taken => ?_
  cases taken with
  | some leaf => exact h.bind fun _ => blind_pure _
  | none => exact blind_pure _

theorem blind_literal (stops : KindSet) : Blind (literal stops) := by
  intro stop stop' given alike
  refine ⟨?_, rfl, rfl⟩
  show Leaf.literal (given.headD stop').start _ = Leaf.literal (given.headD stop).start _
  rw [(alike.headD given).start]

/-- A name that is not there is reported against the next token. -/
theorem blind_name (stops : KindSet) : Blind (name stops) := by
  intro stop stop' given alike
  have missing (h : ∀ t ∈ given.head?, stops.has t.kind = true) :
      (name stops stop given).Agree (name stops stop' given) := by
    rw [name_of_stop h, name_of_stop h, (alike.headD given).start]
    exact ⟨rfl, rfl, (blind_report _ _ stop stop' given alike).findings⟩
  cases given with
  | nil => exact missing (by simp)
  | cons t ts =>
    cases h : stops.has t.kind with
    | true => exact missing (by simpa using h)
    | false =>
      rw [name_of_content h, name_of_content h]
      exact blind_literal stops stop stop' _ alike

theorem Blind.dotted {r : Reader α} (h : Blind r) : Blind (dotted r) := by
  intro stop stop' given alike
  induction given using dotted.induct r stop with
  | case1 =>
    rw [dotted_of_other r (by simp), dotted_of_other r (by simp)]
    exact ⟨rfl, rfl, rfl⟩
  | case2 t ts dot first later =>
    have here := h stop stop' ts alike
    have later : Reading.Agree (Reader.dotted r stop (r stop ts).rest)
        (Reader.dotted r stop' (r stop' ts).rest) := by
      rw [here.rest]
      exact later
    rw [dotted_of_dot r dot, dotted_of_dot r dot]
    refine ⟨?_, later.rest, ?_⟩
    · dsimp only
      rw [here.value, later.value]
    · dsimp only
      rw [List.map_append, List.map_append, here.findings, later.findings]
  | case3 t ts other =>
    rw [dotted_of_other r (by simpa using other), dotted_of_other r (by simpa using other)]
    exact ⟨rfl, rfl, rfl⟩

theorem Blind.chain {r : Reader α} (h : Blind r) : Blind (chain r) :=
  h.bind fun _ => h.dotted.bind fun _ => blind_pure _

theorem blind_mustacheBehind (opening : Leaf) : Blind (mustacheBehind opening) :=
  (blind_name _).chain.bind fun _ => ((blind_literal _).behind _).bind fun _ =>
    (blind_expect _).bind fun _ => blind_pure _

theorem blind_parts (stops : KindSet) : Blind (parts stops) := by
  intro stop stop' given alike
  induction given using parts.induct stops stop with
  | case1 =>
    rw [parts_of_stop (by simp), parts_of_stop (by simp)]
    exact ⟨rfl, rfl, rfl⟩
  | case2 t ts h =>
    rw [parts_of_stop (by simpa using h), parts_of_stop (by simpa using h)]
    exact ⟨rfl, rfl, rfl⟩
  | case3 t ts go h hole later =>
    have here := blind_mustacheBehind (.ofToken t) stop stop' ts alike
    have later : Reading.Agree (parts stops stop (mustacheBehind (.ofToken t) stop ts).rest)
        (parts stops stop' (mustacheBehind (.ofToken t) stop' ts).rest) := by
      rw [here.rest]
      exact later
    rw [parts_of_hole (by simpa using go) h, parts_of_hole (by simpa using go) h]
    refine ⟨?_, later.rest, ?_⟩
    · dsimp only
      rw [here.value, later.value]
    · dsimp only
      rw [List.map_append, List.map_append, here.findings, later.findings]
  | case4 t ts go h inside later =>
    have later : Reading.Agree (parts stops stop (ts.dropWhile (inPiece stops)))
        (parts stops stop' (ts.dropWhile (inPiece stops))) := later
    rw [parts_of_literal (by simpa using go) h, parts_of_literal (by simpa using go) h]
    exact ⟨congrArg (List.cons _) later.value, later.rest, later.findings⟩

theorem blind_template (stops : KindSet) : Blind (template stops) :=
  blind_here.bind fun _ => (blind_parts stops).bind fun _ => blind_pure _

/-- Whether a hole is all there is does not depend on how the line ends. -/
theorem isLone_iff (alike : EndsAlike stop stop') :
    IsLone stop' given ↔ IsLone stop given := by
  refine exists₂_congr fun t ts => and_congr_right fun _ => and_congr_right fun _ => ?_
  rw [(blind_mustacheBehind (.ofToken t) stop stop' ts alike).rest]

theorem blind_value : Blind value := by
  intro stop stop' given alike
  by_cases h : IsLone stop given
  · obtain ⟨t, ts, rfl, opening, lone⟩ := h
    have hole := blind_mustacheBehind (.ofToken t) stop stop' ts alike
    rw [value_of_lone opening lone, value_of_lone opening (hole.rest.trans lone)]
    exact ⟨congrArg Value.mustache hole.value, hole.rest, hole.findings⟩
  · have text := blind_template .empty stop stop' given alike
    rw [value_of_template h, value_of_template (mt (isLone_iff alike).mp h)]
    exact ⟨congrArg Value.template text.value, text.rest, text.findings⟩

/-! ## 5. The forms of a line -/

theorem blind_tagBehind (sigil : Leaf) : Blind (tagBehind sigil) :=
  (blind_name _).bind fun _ => ((blind_template _).chain.behind _).bind fun _ =>
    ((blind_name _).behind _).bind fun _ => blind_pure _

theorem blind_attributeBehind (sigil : Leaf) : Blind (attributeBehind sigil) :=
  (blind_name _).bind fun _ => (blind_value.behind _).bind fun _ => blind_pure _

theorem blind_propertyBehind (sigil : Leaf) : Blind (propertyBehind sigil) :=
  (blind_name _).bind fun _ => ((blind_name _).behind _).bind fun _ =>
    (blind_value.behind _).bind fun _ => blind_pure _

theorem blind_handlerBehind (sigil : Leaf) : Blind (handlerBehind sigil) :=
  (blind_name _).bind fun _ => ((blind_name _).chain.behind _).bind fun _ =>
    (blind_expect _).bind fun _ => (blind_name _).bind fun _ =>
      ((blind_template _).behind _).bind fun _ => blind_pure _

theorem blind_unreadable (kind : Kind) : Blind (unreadable kind) :=
  (blind_report _ _).bind fun _ => (blind_literal _).bind fun _ => blind_pure _

/-- What a line declares does not depend on the characters that it ends with. -/
theorem blind_content : Blind content := by
  intro stop stop' given alike
  cases given with
  | nil => exact ⟨rfl, rfl, rfl⟩
  | cons t ts =>
    have form {r : Reader Content} (h : Blind r) := h stop stop' ts alike
    rw [content, content]
    dsimp only
    split
    · exact (form ((blind_tagBehind _).bind fun _ => blind_pure _)).widen _ _
    · exact (form ((blind_attributeBehind _).bind fun _ => blind_pure _)).widen _ _
    · exact (form ((blind_propertyBehind _).bind fun _ => blind_pure _)).widen _ _
    · exact (form ((blind_handlerBehind _).bind fun _ => blind_pure _)).widen _ _
    · exact (form ((blind_template _).bind fun _ => blind_pure _)).widen _ _
    · exact (form ((blind_template _).bind fun _ => blind_pure _)).widen _ _
    · exact (form ((blind_name _).bind fun _ => blind_pure _)).widen _ _
    · exact (form ((blind_name _).bind fun _ => blind_pure _)).widen _ _
    · exact ⟨rfl, rfl, rfl⟩
    · exact blind_unreadable _ stop stop' (t :: ts) alike

end Reader

end OffsideMarkup
