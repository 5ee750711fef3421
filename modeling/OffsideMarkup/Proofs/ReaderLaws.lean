/-
OffsideMarkup.Proofs.ReaderLaws — what the readers of the grammar do with the tokens they are given.

A reader is a composition of a few loops over the tokens of a line. For each of them there is one
equation for each case of the next token, so that a property of a reader is proved without looking
into the composition. The second section says where readers stop: a name, a literal or a template at
one of its stops, a chain where no dot comes next. From that it follows that every form of a line
reads its line to the end (`content_rest`).
-/
import OffsideMarkup.Grammar.Row
import OffsideMarkup.Proofs.TokenLines

namespace OffsideMarkup

namespace Reader

variable {α β : Type} {stop t : Token} {ts given : List Token}

/-! ## 1. Equations -/

/-- The next token is of a kind, or it is of another kind or not there. -/
theorem head_cases (kind : Kind) (given : List Token) :
    (∃ t ts, given = t :: ts ∧ t.kind = kind) ∨ ∀ t ∈ given.head?, t.kind ≠ kind := by
  cases given with
  | nil => exact .inr (by simp)
  | cons t ts =>
    by_cases h : t.kind = kind
    · exact .inl ⟨t, ts, rfl, h⟩
    · exact .inr (by simpa using h)

/-- The second reader goes on from what is known of the first. -/
theorem andThen_of_eq {r : Reader α} {next : α → Reader β} {a : Reading α given}
    (h : r stop given = a) :
    r.andThen next stop given =
      ⟨(next a.value stop a.rest).value, (next a.value stop a.rest).rest,
        a.findings ++ (next a.value stop a.rest).findings,
        (next a.value stop a.rest).rest_suffix.trans a.rest_suffix⟩ := by
  subst h
  rfl

theorem name_of_stop {stops : KindSet} (h : ∀ t ∈ given.head?, stops.has t.kind = true) :
    name stops stop given =
      ⟨.absent .literal (given.headD stop).start, given,
        [.ofExtent .nonEmptyStringExpected [] (given.headD stop).extent], List.suffix_refl _⟩ := by
  cases given with
  | nil => rfl
  | cons t ts =>
    have : stops.has t.kind = true := h t rfl
    simp [name, bind, andThen, current, atEnd, this, report, pure, done]

theorem name_of_content {stops : KindSet} (h : stops.has t.kind = false) :
    name stops stop (t :: ts) = literal stops stop (t :: ts) := by
  simp [name, bind, andThen, current, atEnd, h]

theorem expect_of_kind {kind : Kind} (h : t.kind = kind) :
    expect kind stop (t :: ts) = ⟨.ofToken t, ts, [], List.suffix_cons t ts⟩ := by
  simp [expect, bind, andThen, eat, h, pure, done]

theorem expect_of_other {kind : Kind} (h : ∀ t ∈ given.head?, t.kind ≠ kind) :
    expect kind stop given =
      ⟨.absent kind (given.headD stop).start, given,
        [.ofExtent .tokenExpected [kind.display] (given.headD stop).extent],
        List.suffix_refl _⟩ := by
  cases given with
  | nil => rfl
  | cons t ts =>
    have : t.kind ≠ kind := h t rfl
    simp [expect, bind, andThen, eat, this, report, here, current, pure, done]

theorem behind_of_kind {kind : Kind} (r : Reader α) (h : t.kind = kind) :
    behind kind r stop (t :: ts) =
      ⟨some (.ofToken t, (r stop ts).value), (r stop ts).rest, (r stop ts).findings,
        (r stop ts).rest_suffix.trans (List.suffix_cons t ts)⟩ := by
  have taken : eat kind stop (t :: ts) = ⟨some (.ofToken t), ts, [], List.suffix_cons t ts⟩ := by
    rw [eat, if_pos h]
  rw [behind, bind_eq_andThen, andThen_of_eq taken]
  simp [bind, andThen, pure, done]

theorem behind_of_other {kind : Kind} (r : Reader α) (h : ∀ t ∈ given.head?, t.kind ≠ kind) :
    behind kind r stop given = ⟨none, given, [], List.suffix_refl _⟩ := by
  cases given with
  | nil => rfl
  | cons t ts =>
    have : t.kind ≠ kind := h t rfl
    simp [behind, bind, andThen, eat, this, pure, done]

theorem dotted_of_dot (item : Reader α) (h : t.kind = .dot) :
    dotted item stop (t :: ts) =
      ⟨(.ofToken t, (item stop ts).value) :: (dotted item stop (item stop ts).rest).value,
        (dotted item stop (item stop ts).rest).rest,
        (item stop ts).findings ++ (dotted item stop (item stop ts).rest).findings,
        ((dotted item stop (item stop ts).rest).rest_suffix.trans (item stop ts).rest_suffix).trans
          (List.suffix_cons t ts)⟩ := by
  rw [dotted]
  simp [h]

theorem dotted_of_other (item : Reader α) (h : ∀ t ∈ given.head?, t.kind ≠ .dot) :
    dotted item stop given = ⟨[], given, [], List.suffix_refl _⟩ := by
  cases given with
  | nil => rw [dotted]
  | cons t ts =>
    have : t.kind ≠ .dot := h t rfl
    rw [dotted]
    simp [this]

theorem parts_of_stop {stops : KindSet} (h : ∀ t ∈ given.head?, stops.has t.kind = true) :
    parts stops stop given = ⟨[], given, [], List.suffix_refl _⟩ := by
  cases given with
  | nil => rw [parts]
  | cons t ts =>
    have : stops.has t.kind = true := h t rfl
    rw [parts]
    simp [this]

theorem parts_of_hole {stops : KindSet} (go : stops.has t.kind = false)
    (h : t.kind = .mustacheOpen) :
    parts stops stop (t :: ts) =
      ⟨.mustache (mustacheBehind (.ofToken t) stop ts).value
          :: (parts stops stop (mustacheBehind (.ofToken t) stop ts).rest).value,
        (parts stops stop (mustacheBehind (.ofToken t) stop ts).rest).rest,
        (mustacheBehind (.ofToken t) stop ts).findings
          ++ (parts stops stop (mustacheBehind (.ofToken t) stop ts).rest).findings,
        ((parts stops stop (mustacheBehind (.ofToken t) stop ts).rest).rest_suffix.trans
          (mustacheBehind (.ofToken t) stop ts).rest_suffix).trans (List.suffix_cons t ts)⟩ := by
  have goes : stops.has .mustacheOpen = false := by rw [← h, go]
  rw [parts]
  simp [goes, h]

theorem literal_of_content {stops : KindSet} (h : stops.has t.kind = false) :
    literal stops stop (t :: ts) =
      ⟨.literal t.start (t :: ts.takeWhile fun u => !stops.has u.kind),
        ts.dropWhile fun u => !stops.has u.kind, [],
        (List.dropWhile_suffix _).trans (List.suffix_cons t ts)⟩ := by
  simp [literal, h]

/-- What a literal piece of a template goes on over. -/
def inPiece (stops : KindSet) (u : Token) : Bool := !(stops.insert .mustacheOpen).has u.kind

theorem parts_of_literal {stops : KindSet} (go : stops.has t.kind = false)
    (h : t.kind ≠ .mustacheOpen) :
    parts stops stop (t :: ts) =
      ⟨.literal (.literal t.start (t :: ts.takeWhile (inPiece stops)))
          :: (parts stops stop (ts.dropWhile (inPiece stops))).value,
        (parts stops stop (ts.dropWhile (inPiece stops))).rest,
        (parts stops stop (ts.dropWhile (inPiece stops))).findings,
        ((parts stops stop (ts.dropWhile (inPiece stops))).rest_suffix.trans
          (List.dropWhile_suffix _)).trans (List.suffix_cons t ts)⟩ := by
  rw [parts]
  simp only [go, h, if_false, Bool.false_eq_true]
  rfl

/-- What follows is a hole, and the line ends behind it. -/
def IsLone (stop : Token) (given : List Token) : Prop :=
  ∃ t ts, given = t :: ts ∧ t.kind = .mustacheOpen
    ∧ (mustacheBehind (.ofToken t) stop ts).rest = []

theorem value_of_lone (h : t.kind = .mustacheOpen)
    (lone : (mustacheBehind (.ofToken t) stop ts).rest = []) :
    value stop (t :: ts) =
      ⟨.mustache (mustacheBehind (.ofToken t) stop ts).value,
        (mustacheBehind (.ofToken t) stop ts).rest,
        (mustacheBehind (.ofToken t) stop ts).findings,
        (mustacheBehind (.ofToken t) stop ts).rest_suffix.trans (List.suffix_cons t ts)⟩ := by
  have found : loneMustache? stop (t :: ts) =
      some ⟨(mustacheBehind (.ofToken t) stop ts).value,
        (mustacheBehind (.ofToken t) stop ts).rest,
        (mustacheBehind (.ofToken t) stop ts).findings,
        (mustacheBehind (.ofToken t) stop ts).rest_suffix.trans (List.suffix_cons t ts)⟩ := by
    simp [loneMustache?, h, lone]
  rw [value, found]

theorem value_of_template (h : ¬IsLone stop given) :
    value stop given =
      ⟨.template (template .empty stop given).value, (template .empty stop given).rest,
        (template .empty stop given).findings, (template .empty stop given).rest_suffix⟩ := by
  have missed : loneMustache? stop given = none := by
    cases given with
    | nil => rfl
    | cons t ts =>
      simp only [loneMustache?]
      split
      · next opening =>
        rw [if_neg]
        exact fun lone => h ⟨t, ts, rfl, opening, List.isEmpty_iff.mp lone⟩
      · rfl
  rw [value, missed]

/-! ## 2. Where readers stop -/

/-- The next token, if there is one, is of one of these kinds. -/
def Before (ks : List Kind) (given : List Token) : Prop := ∀ t ∈ given.head?, t.kind ∈ ks

/-- A reader that reads on until one of these kinds comes next. -/
def ReadsUpTo (ks : List Kind) (r : Reader α) : Prop :=
  ∀ stop given, Before ks (r stop given).rest

theorem Before.eq_nil (h : Before [] given) : given = [] := by
  cases given with
  | nil => rfl
  | cons t ts => exact absurd (h t rfl) (by simp)

theorem readsUpTo_literal (ks : List Kind) : ReadsUpTo ks (literal (.ofList ks)) := by
  intro stop given t ht
  have head := List.head?_dropWhile_not (fun t => !(KindSet.ofList ks).has t.kind) given
  rw [literal] at ht
  rw [Option.mem_def] at ht
  rw [ht] at head
  simpa [KindSet.ofList] using head

theorem readsUpTo_name (ks : List Kind) : ReadsUpTo ks (name (.ofList ks)) := by
  intro stop given
  cases given with
  | nil => intro t ht; rw [name_of_stop (by simp)] at ht; simp at ht
  | cons t ts =>
    cases h : (KindSet.ofList ks).has t.kind with
    | true =>
      rw [name_of_stop (by simpa using h)]
      intro u hu
      obtain rfl : t = u := by simpa using hu
      simpa [KindSet.ofList] using h
    | false => rw [name_of_content h]; exact readsUpTo_literal ks stop (t :: ts)

theorem readsUpTo_parts (ks : List Kind) : ReadsUpTo ks (parts (.ofList ks)) := by
  intro stop given
  induction given using parts.induct (.ofList ks) stop with
  | case1 => intro t ht; rw [parts_of_stop (by simp)] at ht; simp at ht
  | case2 t ts h =>
    intro u hu
    rw [parts_of_stop (by simpa using h)] at hu
    obtain rfl : t = u := by simpa using hu
    simpa [KindSet.ofList] using h
  | case3 t ts go h hole later =>
    rw [parts_of_hole (by simpa using go) h]
    exact later
  | case4 t ts go h inside later =>
    rw [parts_of_literal (by simpa using go) h]
    exact later

theorem readsUpTo_template (ks : List Kind) : ReadsUpTo ks (template (.ofList ks)) :=
  readsUpTo_parts ks

/-- A chain goes on over dots, so it stops where its items do, but in front of no dot. -/
theorem readsUpTo_chain {item : Reader α} {ks : List Kind} (h : ReadsUpTo (.dot :: ks) item) :
    ReadsUpTo ks (chain item) := by
  intro stop given
  show Before ks (dotted item stop (item stop given).rest).rest
  have first := h stop given
  revert first
  generalize (item stop given).rest = more
  intro first
  induction more using dotted.induct item stop with
  | case1 => intro t ht; rw [dotted_of_other item (by simp)] at ht; simp at ht
  | case2 t ts dot first later =>
    rw [dotted_of_dot item dot]
    exact later (h stop ts)
  | case3 t ts dot =>
    intro u hu
    rw [dotted_of_other item (by simpa using dot)] at hu
    obtain rfl : t = u := by simpa using hu
    exact (List.mem_cons.mp (first t rfl)).resolve_left dot

/-- Behind an optional part comes what may come behind the part, or what could come instead. -/
theorem before_behind (stop : Token) {kind : Kind} {r : Reader α} {ks : List Kind}
    (h : ReadsUpTo ks r) (front : Before (kind :: ks) given) :
    Before ks (behind kind r stop given).rest := by
  rcases head_cases kind given with ⟨t, ts, rfl, is⟩ | other
  · rw [behind_of_kind r is]
    exact h stop ts
  · intro t ht
    rw [behind_of_other r other] at ht
    exact (List.mem_cons.mp (front t ht)).resolve_left (other t ht)

theorem readsUpTo_value : ReadsUpTo [] value := by
  intro stop given
  by_cases h : IsLone stop given
  · obtain ⟨t, ts, rfl, opening, lone⟩ := h
    rw [value_of_lone opening lone, lone]
    intro u hu
    exact absurd hu (by simp)
  · rw [value_of_template h]
    exact readsUpTo_template [] stop given

/-! ## 3. Every form reads its line to the end -/

theorem tagBehind_rest (sigil : Leaf) : (tagBehind sigil stop given).rest = [] := by
  have name := readsUpTo_name [.dot, .hashSign] stop given
  have classTexts : ReadsUpTo [.hashSign] (chain (template (.ofList [.dot, .hashSign]))) :=
    readsUpTo_chain (readsUpTo_template [.dot, .hashSign])
  have classes := before_behind stop classTexts name
  have reference := before_behind stop (readsUpTo_name []) classes
  exact reference.eq_nil

theorem attributeBehind_rest (sigil : Leaf) : (attributeBehind sigil stop given).rest = [] := by
  have binding := readsUpTo_name [.equals] stop given
  have value := before_behind stop readsUpTo_value binding
  exact value.eq_nil

theorem propertyBehind_rest (sigil : Leaf) : (propertyBehind sigil stop given).rest = [] := by
  have binding := readsUpTo_name [.equals, .atSign] stop given
  have swapped : Before [.atSign, .equals] (name (.ofList [.equals, .atSign]) stop given).rest := by
    intro t ht
    have := binding t ht
    simp only [List.mem_cons, List.not_mem_nil, or_false] at this ⊢
    exact this.symm
  have trigger := before_behind stop (readsUpTo_name [.equals]) swapped
  have value := before_behind stop readsUpTo_value trigger
  exact value.eq_nil

theorem handlerBehind_rest (sigil : Leaf) : (handlerBehind sigil stop given).rest = [] := by
  have action := readsUpTo_name [.colon] stop
    (expect .equals stop (behind .dot (chain (name (.ofList [.dot, .equals]))) stop
      (name (.ofList [.dot, .equals]) stop given).rest).rest).rest
  have parameter := before_behind stop (readsUpTo_template []) action
  exact parameter.eq_nil

/-- A line is read to its end, whatever it opens with. Of a comment it has to be known that nothing
comes behind it. -/
theorem content_rest (alone : ∀ t ts, given = t :: ts → t.kind = .comment → ts = []) :
    (content stop given).rest = [] := by
  cases given with
  | nil => rfl
  | cons t ts =>
    rw [content]
    dsimp only
    split
    · exact tagBehind_rest (.ofToken t)
    · exact attributeBehind_rest (.ofToken t)
    · exact propertyBehind_rest (.ofToken t)
    · exact handlerBehind_rest (.ofToken t)
    · exact (readsUpTo_template [] stop ts).eq_nil
    · exact (readsUpTo_template [] stop ts).eq_nil
    · exact (readsUpTo_name [] stop ts).eq_nil
    · exact (readsUpTo_name [] stop ts).eq_nil
    · next h => exact alone t ts rfl h
    · exact (readsUpTo_literal [] stop (t :: ts)).eq_nil

end Reader

end OffsideMarkup
