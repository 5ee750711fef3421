/-
OffsideMarkup.Proofs.ReaderAccount — what a reader reports, held against what it reads.

A reader gives findings and nodes, one behind the other. An account relates the two, lists of
findings to lists of nodes, and is kept piece by piece: nothing is to be said of a leaf that is
there, a leaf that is missing has one finding that tells of it, and a composite node has the account
of its parts (`Account`). There is no other way in which a reader comes by nodes and findings, so a
relation that is an account holds of whatever a reader gives (`Accounts`), with one lemma for each
reader.

The content of a line is accounted for in this way, unless it could not be read at all
(`accounted_content`).
-/
import OffsideMarkup.Proofs.ReaderTiling

namespace OffsideMarkup

/-! ## 1. Accounts -/

/-- A kind of leaf that stands between the two ends of a line. -/
def Kind.isInner : Kind → Bool
  | .indentation | .lineBreak | .endOfText => false
  | _ => true

/-- A finding tells of a missing node: it starts where the node was looked for, and says whether a
token or a name is missing, and which token. -/
def Diagnostic.TellsOf (d : Diagnostic) (parent : Option Kind) (l : Label) : Prop :=
  d.span.start = l.extent.span.start
    ∧ (d.code = 1 ∧ (parent = some .handler ∧ l.kind = .equals ∧ d.text = "Token '=' expected."
        ∨ parent = some .mustache ∧ l.kind = .mustacheClose
          ∧ d.text = "Token '\x7d\x7d' expected.")
      ∨ d.code = 5 ∧ l.kind = .literal)

namespace Reader

/-- A relation of findings and nodes, whose parent has the given kind, that is kept piece by
piece. -/
structure Account (R : Option Kind → List Diagnostic → List Node → Prop) : Prop where
  nil : ∀ parent, R parent [] []
  append : ∀ {parent : Option Kind} {ds es : List Diagnostic} {ts us : List Node},
    R parent ds ts → R parent es us → R parent (ds ++ es) (ts ++ us)
  compose : ∀ {kind : Kind} {ds : List Diagnostic} {ts : List Node}, R (some kind) ds ts →
    ∀ (parent : Option Kind) (start : Location) (level : Option Nat),
      R parent ds [Node.compose kind start ts level]
  present : ∀ {l : Leaf}, l.missing = false → l.kind.isInner = true →
    ∀ (parent : Option Kind) (role : Role), R parent [] [l.node role]
  absent : ∀ {l : Leaf}, l.missing = true → l.kind.isInner = true →
    ∀ {parent : Option Kind} {role : Role} {d : Diagnostic},
      d.TellsOf parent (l.node role).label → R parent [d] [l.node role]

variable {α β : Type} {stop t : Token} {ts given : List Token}
  {R : Option Kind → List Diagnostic → List Node → Prop}

/-! ## 2. Readers -/

/-- What a reader reports is related to the nodes of what it reads. -/
def Accounts (R : Option Kind → List Diagnostic → List Node → Prop) (parent : Option Kind)
    (r : Reader α) (view : α → List Node) : Prop :=
  ∀ stop given, R parent (r stop given).findings (view (r stop given).value)

/-- The same of a reader that finishes something: the nodes in front are not its own. -/
def AccountsBehind (R : Option Kind → List Diagnostic → List Node → Prop) (parent : Option Kind)
    (front : List Node) (r : Reader α) (view : α → List Node) : Prop :=
  ∀ stop given, ∃ own, view (r stop given).value = front ++ own
    ∧ R parent (r stop given).findings own

section

variable (account : Account R) (parent : Option Kind)

include account

theorem accounts_literal (stops : KindSet) (role : Role) :
    Accounts R parent (literal stops) fun l => [l.node role] :=
  fun _ _ => account.present rfl rfl parent role

theorem accounts_name (stops : KindSet) (role : Role) :
    Accounts R parent (name stops) fun l => [l.node role] := by
  intro stop given
  have missed (h : ∀ t ∈ given.head?, stops.has t.kind = true) :
      R parent (name stops stop given).findings [(name stops stop given).value.node role] := by
    rw [name_of_stop h]
    exact account.absent rfl rfl ⟨rfl, .inr ⟨rfl, rfl⟩⟩
  cases given with
  | nil => exact missed (by simp)
  | cons t ts =>
    cases h : stops.has t.kind with
    | true => exact missed (by simpa using h)
    | false =>
      rw [name_of_content h]
      exact accounts_literal account parent stops role stop (t :: ts)

/-- A token that has been seen is there. -/
theorem present_ofToken {kind : Kind} (inner : kind.isInner = true) (is : t.kind = kind)
    (role : Role) : R parent [] [(Leaf.ofToken t).node role] :=
  account.present rfl (by rw [← inner, ← is]; rfl) parent role

/-- The equals sign of a handler may be missing. -/
theorem accounts_expect_equals (role : Role) :
    Accounts R (some .handler) (expect .equals) fun l => [l.node role] := by
  intro stop given
  rcases head_cases .equals given with ⟨t, ts, rfl, h⟩ | other
  · rw [expect_of_kind h]
    exact present_ofToken account _ rfl h role
  · rw [expect_of_other other]
    exact account.absent rfl rfl ⟨rfl, .inl ⟨rfl, .inl ⟨rfl, rfl, by cbv⟩⟩⟩

/-- The closing braces of a hole may be missing. -/
theorem accounts_expect_mustacheClose (role : Role) :
    Accounts R (some .mustache) (expect .mustacheClose) fun l => [l.node role] := by
  intro stop given
  rcases head_cases .mustacheClose given with ⟨t, ts, rfl, h⟩ | other
  · rw [expect_of_kind h]
    exact present_ofToken account _ rfl h role
  · rw [expect_of_other other]
    exact account.absent rfl rfl ⟨rfl, .inl ⟨rfl, .inr ⟨rfl, rfl, by cbv⟩⟩⟩

variable {parent}

theorem accounts_behind {kind : Kind} (inner : kind.isInner = true) {r : Reader α}
    {view : α → Node} (role : Role) (h : Accounts R parent r fun a => [view a]) :
    Accounts R parent (behind kind r) (pairNodes (·.node role) view) := by
  intro stop given
  rcases head_cases kind given with ⟨t, ts, rfl, is⟩ | other
  · rw [behind_of_kind r is]
    exact account.append (present_ofToken account parent inner is role) (h stop ts)
  · rw [behind_of_other r other]
    exact account.nil parent

theorem accounts_dotted {item : Reader α} {view : α → Node} (role : Role)
    (h : Accounts R parent item fun a => [view a]) :
    Accounts R parent (dotted item) fun later => later.flatMap fun (dot, a) =>
      [dot.node role, view a] := by
  intro stop given
  induction given using dotted.induct item stop with
  | case1 =>
    rw [dotted_of_other item (by simp)]
    exact account.nil parent
  | case2 t ts dot first later =>
    rw [dotted_of_dot item dot]
    have leaf := present_ofToken account parent rfl dot role
    exact account.append (account.append leaf (h stop ts)) later
  | case3 t ts dot =>
    rw [dotted_of_other item (by simpa using dot)]
    exact account.nil parent

variable {front : List Node} {view : α → List Node} {view' : β → List Node}

theorem Account.pure {b : β} (h : view' b = front) :
    AccountsBehind R parent front (Pure.pure b) view' :=
  fun _ _ => ⟨[], h.trans (List.append_nil _).symm, account.nil parent⟩

/-- One reader, then another that finishes what both read. -/
theorem Account.bind {r : Reader α} {next : α → Reader β} (h : Accounts R parent r view)
    (h' : ∀ a, AccountsBehind R parent (front ++ view a) (next a) view') :
    AccountsBehind R parent front (r >>= next) view' := by
  intro stop given
  obtain ⟨own, nodes, related⟩ := h' (r stop given).value stop (r stop given).rest
  exact ⟨_, nodes.trans (List.append_assoc ..), account.append (h stop given) related⟩

/-- There is nothing to say of what stood in front. -/
theorem Account.finish {r : Reader β} (h : AccountsBehind R parent front r view')
    (there : R parent [] front) : Accounts R parent r view' := by
  intro stop given
  obtain ⟨own, nodes, related⟩ := h stop given
  rw [nodes]
  exact account.append there related

theorem accounts_chain {item : Reader α} {view : α → Node} (role : Role)
    (h : Accounts R (some .chain) item fun a => [view a]) :
    Accounts R parent (chain item) fun c => [c.node role view] := by
  have items : AccountsBehind R (some .chain) [] (chain item)
      fun c : Chain α => c.nodes role view :=
    account.bind h fun _ => account.bind (accounts_dotted account role h) fun _ =>
      account.pure rfl
  exact fun stop given =>
    account.compose (account.finish items (account.nil _) stop given) parent _ none

/-! ## 3. Holes, templates and values -/

theorem accounts_mustacheBehind {opening : Leaf}
    (there : ∀ role, R (some .mustache) [] [opening.node role]) :
    Accounts R parent (mustacheBehind opening) fun m => [m.node] := by
  intro stop given
  have parts : AccountsBehind R (some .mustache) [opening.node .part] (mustacheBehind opening)
      fun m => m.node.children :=
    account.bind (accounts_chain account .part (accounts_name account _ _ .part)) fun _ =>
      account.bind (accounts_behind account rfl .part (accounts_literal account _ _ .part))
        fun _ =>
      account.bind (accounts_expect_mustacheClose account .part) fun _ =>
        account.pure rfl
  exact account.compose (account.finish parts (there .part) stop given) parent _ none

theorem accounts_parts (stops : KindSet) :
    Accounts R parent (parts stops) (·.map TemplatePart.node) := by
  intro stop given
  induction given using parts.induct stops stop with
  | case1 => rw [parts_of_stop (by simp)]; exact account.nil parent
  | case2 t ts h => rw [parts_of_stop (by simpa using h)]; exact account.nil parent
  | case3 t ts go h hole later =>
    rw [parts_of_hole (by simpa using go) h]
    have opening := fun role => present_ofToken account (some .mustache) rfl h role
    exact account.append (accounts_mustacheBehind account opening stop ts) later
  | case4 t ts go h inside later =>
    rw [parts_of_literal (by simpa using go) h]
    exact account.append (account.present rfl rfl parent .part) later

theorem accounts_template (stops : KindSet) :
    Accounts R parent (template stops) fun t => [t.node] := by
  intro stop given
  have findings : (template stops stop given).findings = (parts stops stop given).findings :=
    List.append_nil _
  rw [findings]
  exact account.compose (accounts_parts account stops stop given) parent _ none

/-- A hole that is given up takes with it what was missing in it and what was reported of it. -/
theorem accounts_value : Accounts R parent value fun v => [v.node] := by
  intro stop given
  by_cases h : IsLone stop given
  · obtain ⟨t, ts, rfl, opening, lone⟩ := h
    rw [value_of_lone opening lone]
    exact accounts_mustacheBehind account (present_ofToken account _ rfl opening) stop ts
  · rw [value_of_template h]
    exact accounts_template account .empty stop given

/-! ## 4. The forms of a line -/

section

variable {sigil : Leaf}

theorem accounts_tagBehind (there : R (some .tag) [] [sigil.node .sigil]) :
    Accounts R parent (tagBehind sigil) fun t => [t.node] := by
  intro stop given
  have parts : AccountsBehind R (some .tag) [sigil.node .sigil] (tagBehind sigil)
      fun t => t.node.children :=
    account.bind (accounts_name account _ _ .subject) fun _ =>
      account.bind (accounts_behind account rfl .part
        (accounts_chain account .part (accounts_template account _))) fun _ =>
      account.bind (accounts_behind account rfl .part (accounts_name account _ _ .part)) fun _ =>
        account.pure rfl
  exact account.compose (account.finish parts there stop given) parent _ none

variable (there : R parent [] [sigil.node .sigil])

include there

theorem accounts_attributeBehind :
    Accounts R parent (attributeBehind sigil) fun a => (Body.attribute a).nodes := by
  have parts : AccountsBehind R parent [sigil.node .sigil] (attributeBehind sigil)
      fun a => (Body.attribute a).nodes :=
    account.bind (accounts_name account _ _ .subject) fun _ =>
      account.bind (accounts_behind account rfl .part (accounts_value account)) fun _ =>
        account.pure rfl
  exact account.finish parts there

theorem accounts_propertyBehind :
    Accounts R parent (propertyBehind sigil) fun a => (Body.attribute a).nodes := by
  have parts : AccountsBehind R parent [sigil.node .sigil] (propertyBehind sigil)
      fun a => (Body.attribute a).nodes :=
    account.bind (accounts_name account _ _ .subject) fun _ =>
      account.bind (accounts_behind account rfl .trigger (accounts_name account _ _ .trigger))
        fun _ =>
      account.bind (accounts_behind account rfl .part (accounts_value account)) fun _ =>
        account.pure rfl
  exact account.finish parts there

end

theorem accounts_handlerBehind {sigil : Leaf}
    (there : R (some .handler) [] [sigil.node .sigil]) :
    Accounts R (some .handler) (handlerBehind sigil) fun h => (Body.handler h).nodes := by
  have parts : AccountsBehind R (some .handler) [sigil.node .sigil] (handlerBehind sigil)
      fun h => (Body.handler h).nodes :=
    account.bind (accounts_name account _ _ .subject) fun _ =>
      account.bind (accounts_behind account rfl .modifier
        (accounts_chain account .modifier (accounts_name account _ _ .modifier))) fun _ =>
      account.bind (accounts_expect_equals account .part) fun _ =>
      account.bind (accounts_name account _ _ .part) fun _ =>
      account.bind (accounts_behind account rfl .part (accounts_template account _)) fun _ =>
        account.pure (by simp [Body.nodes])
  exact account.finish parts there

end

def Content.kind : Content → Kind
  | .element _ => .element
  | .simple body => body.kind

/-- The literal that a content is which could not be read. -/
def Content.rejected : Content → Option Leaf
  | .simple (.comment (some words)) => if words.kind = .literal then some words else none
  | _ => none

/-- How what is reported of a line answers to what is read of it. What could not be read is reported
where it starts; otherwise the account is that of the parts of the line. -/
inductive Accounted (R : Option Kind → List Diagnostic → List Node → Prop) :
    List Diagnostic → Content → Prop
  | rejected {d : Diagnostic} {l : Leaf} (code : d.code = 2)
      (start : d.span.start = l.extent.span.start) (kind : l.kind = .literal)
      (there : l.missing = false) : Accounted R [d] (.simple (.comment (some l)))
  | related {ds : List Diagnostic} {c : Content} (readable : c.rejected = none)
      (related : R (some c.kind) ds c.nodes) : Accounted R ds c

/-- A line that is read by a form, of which all nodes are kept. -/
theorem accounted_form {r : Reader α} {kind : Kind} (form : α → Content)
    (h : Accounts R (some kind) r fun a => (form a).nodes) (is : ∀ a, (form a).kind = kind)
    (readable : ∀ a, (form a).rejected = none) (stop : Token) (ts : List Token) :
    Accounted R ((do return form (← r) : Reader Content) stop ts).findings
      ((do return form (← r) : Reader Content) stop ts).value := by
  have findings : ((do return form (← r) : Reader Content) stop ts).findings
      = (r stop ts).findings := List.append_nil _
  rw [findings]
  refine .related (readable _) ?_
  have related := h stop ts
  rw [← is (r stop ts).value] at related
  exact related

theorem accounted_content (account : Account R) (stop : Token) (given : List Token) :
    Accounted R (content stop given).findings (content stop given).value := by
  cases given with
  | nil => exact .related rfl (account.nil _)
  | cons t ts =>
    rw [content]
    dsimp only
    have sigil {kind : Kind} (inner : kind.isInner = true) (is : t.kind = kind)
        (parent : Option Kind) (role : Role) : R parent [] [(Leaf.ofToken t).node role] :=
      present_ofToken account parent inner is role
    have template (there : R (some .textLine) [] [(Leaf.ofToken t).node .sigil]) :
        Accounts R (some .textLine) (Reader.template .empty) fun content =>
          (Body.text (.ofToken t) content).nodes :=
      fun stop ts => account.append there (accounts_template account .empty stop ts)
    have name (there : R (some .mountingPoint) [] [(Leaf.ofToken t).node .sigil]) :
        Accounts R (some .mountingPoint) (Reader.name .empty) fun name =>
          (Body.mountingPoint (.ofToken t) name).nodes :=
      fun stop ts => account.append there (accounts_name account _ .empty .subject stop ts)
    split
    · next is =>
      exact accounted_form .element (accounts_tagBehind account (sigil rfl is _ _))
        (fun _ => rfl) (fun _ => rfl) stop ts
    · next is =>
      exact accounted_form (.simple ∘ .attribute)
        (accounts_attributeBehind account (sigil rfl is _ _)) (fun _ => rfl) (fun _ => rfl) stop ts
    · next is =>
      exact accounted_form (.simple ∘ .attribute)
        (accounts_propertyBehind account (sigil rfl is _ _)) (fun _ => rfl) (fun _ => rfl) stop ts
    · next is =>
      exact accounted_form (.simple ∘ .handler)
        (accounts_handlerBehind account (sigil rfl is _ _)) (fun _ => rfl) (fun _ => rfl) stop ts
    · next is =>
      exact accounted_form (.simple ∘ .text _) (template (sigil rfl is _ _)) (fun _ => rfl)
        (fun _ => rfl) stop ts
    · next is =>
      exact accounted_form (.simple ∘ .text _) (template (sigil rfl is _ _)) (fun _ => rfl)
        (fun _ => rfl) stop ts
    · next is =>
      exact accounted_form (.simple ∘ .mountingPoint _) (name (sigil rfl is _ _)) (fun _ => rfl)
        (fun _ => rfl) stop ts
    · next is =>
      exact accounted_form (.simple ∘ .mountingPoint _) (name (sigil rfl is _ _)) (fun _ => rfl)
        (fun _ => rfl) stop ts
    · next comment =>
      refine .related ?_ (sigil rfl comment _ .part)
      exact if_neg (by simp [Leaf.ofToken, comment])
    · exact .rejected rfl rfl rfl rfl

end Reader

end OffsideMarkup
