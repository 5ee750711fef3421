/-
OffsideMarkup.Proofs.CompletionSplit — a completion comes from one side only.

What is offered at the cursor comes from the catalogue of modifiers or from the host. Both are
decided by the node under the cursor, each by its own conditions on kinds, and no place in a tree
meets both (`not_both_at`). So the server has nothing to put beside what the host lists. A question
is asked with nothing offered along with it (`Question.Bare`), and an answer is made of modifiers
alone or of the items of one list alone, be it a list that has just come in or one that was kept
(`Answer.OneSided`).

* `oneSided_turn` — one turn, by what is dealt with in it;
* `oneSided_turns` — all turns of a session, with what the host has given over them;
* `completion_split` — files, servers and sessions.
-/
import OffsideMarkup.Proofs.DocumentReplay
import OffsideMarkup.Proofs.KeptLists
import OffsideMarkup.Proofs.NodePlaces

namespace OffsideMarkup

/-! ## 1. Files -/

section

variable {variant : Variant} {text : List Char} {p : Position} {s : Spot} {above : List Label}

namespace Row.Places

variable (place : s.row.Places above s.label)
  (chosen : (SourceFile.ofText variant text).spotAt? p = some s)

include place chosen

theorem inModifiers (offers : (SourceFile.ofText variant text).modifiersAt p ≠ []) :
    s.label.InModifiers above := by
  obtain ⟨s', same, offers⟩ := SourceFile.spot_of_modifiersAt offers
  obtain rfl := Option.some.inj (chosen.symm.trans same)
  exact place.modifier (Spot.role_of_modifiers offers).1

theorem opensForm (asks : (SourceFile.ofText variant text).targetAt? p ≠ none) :
    s.label.OpensForm above := by
  obtain ⟨target, asks⟩ := Option.ne_none_iff_exists'.mp asks
  obtain ⟨s', same, role, asks⟩ := SourceFile.spot_of_targetAt? asks
  obtain rfl := Option.some.inj (chosen.symm.trans same)
  exact place.sigil role s.ownerName? (by rw [asks]; simp)

end Row.Places

/-- Where modifiers are offered, the host is not asked. -/
theorem not_both_at (variant : Variant) (text : List Char) (p : Position) :
    (SourceFile.ofText variant text).modifiersAt p = []
      ∨ (SourceFile.ofText variant text).targetAt? p = none := by
  by_contra both
  obtain ⟨offers, asks⟩ := not_or.mp both
  obtain ⟨s, chosen, -⟩ := SourceFile.spot_of_modifiersAt offers
  obtain ⟨i, above, -, -, place⟩ := exists_place chosen
  exact (place.inModifiers chosen offers).not_opensForm (place.opensForm chosen asks)

end

/-! ## 2. One side -/

/-- Nothing is kept to be offered beside what the host lists. -/
def Question.Bare : Question → Prop
  | .completion offered _ => offered = []
  | .hover _ => True

/-- What is offered are some modifiers of the catalogue, in its order, or else what fits a target of
a list that the host gave for the same fragment. Other answers offer nothing. -/
def Answer.OneSided (rs : List Receipt) : Answer → Prop
  | .completion isIncomplete offers =>
    (isIncomplete = false ∧ ∃ ms : List Modifier, ms.Sublist Modifier.catalogue
      ∧ offers = ms.map .modifier)
    ∨ ∃ r ∈ rs, ∃ (target : Target) (list : HostList), r.target.fragment = target.fragment
      ∧ HostList.ofJson? r.result = some list ∧ isIncomplete = list.isIncomplete
      ∧ offers = (target.select list).items.map .host
  | _ => True

theorem Answer.OneSided.mono {rs rs' : List Receipt} (sub : rs ⊆ rs') {a : Answer}
    (h : a.OneSided rs) : a.OneSided rs' := by
  cases a with
  | completion isIncomplete offers =>
    refine h.imp_right ?_
    rintro ⟨r, mem, others⟩
    exact ⟨r, sub mem, others⟩
  | _ => trivial

/-- Targets whose lists stand on one shelf are asked for by the same fragment. -/
theorem Target.fragment_eq {t u : Target} {shelf : Shelf} (ht : t.shelf? = some shelf)
    (hu : u.shelf? = some shelf) : t.fragment = u.fragment := by
  have attributes {v : Target} {owner : List Char} (about : v.attributeTag? = some owner) :
      v.fragment = .attributesOf owner := by
    match v, about with
    | .attribute _, rfl => rfl
    | .event _, rfl => rfl
  cases shelf with
  | tags => rw [shelf?_eq_tags.mp ht, shelf?_eq_tags.mp hu]
  | attributes owner =>
    rw [attributes (shelf?_eq_attributes.mp ht).1, attributes (shelf?_eq_attributes.mp hu).1]

/-- The modifiers at a position are some of the catalogue. -/
theorem sublist_modifiersAt (file : SourceFile) (p : Position) :
    (file.modifiersAt p).Sublist Modifier.catalogue := by
  have spot (s : Spot) : s.modifiers.Sublist Modifier.catalogue := by
    rw [Spot.modifiers.eq_def]
    split
    · exact List.filter_sublist
    · exact List.nil_sublist _
  rw [SourceFile.modifiersAt]
  split
  · cases file.spotAt? p with
    | none => exact List.nil_sublist _
    | some s => exact spot s
  · exact List.nil_sublist _

namespace Server

variable {s : Server} {rs : List Receipt} {after : Server × List ServerMessage}

/-- A step after which nothing is kept beside open questions, and which answers from one side. -/
structure OneSided (rs : List Receipt) (after : Server × List ServerMessage) : Prop where
  bare : ∀ f ∈ after.1.pending, f.question.Bare
  answers : ∀ id a, .answer id a ∈ after.2 → a.OneSided rs

theorem OneSided.andThen {first second : Server × List ServerMessage} (h : OneSided rs first)
    (h' : OneSided rs second) : OneSided rs (second.1, first.2 ++ second.2) := by
  refine ⟨h'.bare, fun id a sent => ?_⟩
  rcases List.mem_append.mp sent with early | late
  · exact h.answers id a early
  · exact h'.answers id a late

/-- What is offered on behalf of a bare question, with a list that came in for its target or for
another one on the same shelf. -/
theorem oneSided_offers {target : Target} {list : Option HostList}
    (given : ∀ l ∈ list, ∃ r ∈ rs, r.target.fragment = target.fragment
      ∧ HostList.ofJson? r.result = some l) : (offers [] target list).OneSided rs := by
  cases list with
  | none => exact .inl ⟨rfl, [], List.nil_sublist _, rfl⟩
  | some l =>
    obtain ⟨r, mem, same, decoded⟩ := given l rfl
    exact .inr ⟨r, mem, target, l, same, decoded, rfl, rfl⟩

section

variable (bare : ∀ f ∈ s.pending, f.question.Bare)

include bare

theorem oneSided_same : OneSided rs (s, []) := ⟨bare, by simp⟩

theorem oneSided_answer {id : RequestId} {a : Answer} (h : a.OneSided rs) :
    OneSided rs (s, [.answer id a]) := by
  refine ⟨bare, fun other b sent => ?_⟩
  obtain ⟨rfl, rfl⟩ := ServerMessage.answer.inj (List.mem_singleton.mp sent)
  exact h

theorem oneSided_reply {id : RequestId} {outcome : Except Fault Answer}
    (h : ∀ a, outcome = .ok a → a.OneSided rs) : OneSided rs (s, [reply id outcome]) := by
  cases outcome with
  | ok a => exact oneSided_answer bare (h a rfl)
  | error fault => exact ⟨bare, by simp [reply]⟩

theorem oneSided_forget (f : Forward) : ∀ g ∈ (s.forget f).pending, g.question.Bare :=
  fun g hg => bare g (List.mem_of_mem_filter hg)

/-- A question is settled, with a result that has come in. -/
theorem oneSided_settle {f : Forward} (own : f.question.Bare) (now : Nat) {result : Option Json}
    (given : ∀ value ∈ result, ∀ offered target, f.question = .completion offered target →
      ∃ r ∈ rs, r.target = target ∧ r.result = value) :
    OneSided rs (s.settle now f result) := by
  rw [settle]
  split
  · next offered target asked =>
    rw [asked] at own
    obtain rfl : offered = [] := own
    refine ⟨bare, (oneSided_answer bare (oneSided_offers fun l hl => ?_)).answers⟩
    obtain ⟨value, hv, decoded⟩ := Option.bind_eq_some_iff.mp hl
    obtain ⟨r, mem, same, rfl⟩ := given value hv _ _ asked
    exact ⟨r, mem, congrArg Target.fragment same, decoded⟩
  · refine oneSided_answer bare ?_
    cases result.bind HostHover.ofJson? <;> trivial

theorem oneSided_settleAll (now : Nat) (fs : List Forward) (own : ∀ f ∈ fs, f.question.Bare) :
    OneSided rs (s.settleAll now fs) := by
  induction fs generalizing s with
  | nil => exact oneSided_same bare
  | cons f fs ih =>
    obtain ⟨first, others⟩ := List.forall_mem_cons.mp own
    have settled : OneSided rs ((s.forget f).settle now f none) :=
      oneSided_settle (oneSided_forget bare f) first now (by simp)
    exact settled.andThen (ih settled.bare others)

/-! ## 3. Turns -/

theorem oneSided_withDocument {id : RequestId} {uri : String}
    {next : Analysis → Server × List ServerMessage}
    (h : ∀ a, s.documents.get? uri = some a → OneSided rs (next a)) :
    OneSided rs (s.withDocument id uri next) := by
  rw [withDocument]
  split
  · next a found => exact h a found
  · exact oneSided_reply bare (by simp)

variable (cached : Cached s.cache rs)

include cached

/-- A completion is answered by the catalogue or by a list that was kept, or the host is asked. -/
theorem oneSided_complete {a : Analysis} (sound : a.Sound) (now : Nat) (id : RequestId)
    (p : Position) : OneSided rs (s.complete now id a p) := by
  rw [complete]
  split
  · next asks =>
    exact oneSided_answer bare (.inl ⟨rfl, _, sublist_modifiersAt a.tree p, rfl⟩)
  · next target asks =>
    have nothing : a.tree.modifiersAt p = [] := by
      have tree : a.tree = .ofText .html a.document.text := sound.upToDate.tree
      rw [tree] at asks ⊢
      exact (not_both_at .html _ p).resolve_right (by simp [asks])
    rw [nothing, cached.get?]
    cases found : serving? s.config.tagLifetimeMillis now target rs with
    | none =>
      refine ⟨List.forall_mem_append.mpr ⟨bare, List.forall_mem_singleton.mpr rfl⟩, ?_⟩
      simp [ask]
    | some entry =>
      refine oneSided_answer bare (oneSided_offers fun l hl => ?_)
      obtain rfl : entry.2 = l := by simpa using hl
      obtain ⟨shelf, here, serves⟩ := Option.bind_eq_some_iff.mp found
      obtain ⟨mem, there, stored⟩ := mem_of_lastOn? (Option.filter_eq_some_iff.mp serves).1
      exact ⟨entry.1, mem, Target.fragment_eq there here, (Receipt.list?_eq_some.mp stored).1⟩

omit cached in
theorem oneSided_explain (now : Nat) (id : RequestId) (a : Analysis) (p : Position) :
    OneSided rs (s.explain now id a p) := by
  rw [explain]
  split
  · exact oneSided_answer bare trivial
  · exact oneSided_answer bare trivial
  · refine ⟨List.forall_mem_append.mpr ⟨bare, List.forall_mem_singleton.mpr trivial⟩, ?_⟩
    simp [ask]

omit cached in
/-- An answer of a kind that offers nothing. -/
theorem oneSided_map {α : Type} (make : α → Answer) (h : ∀ x, (make x).OneSided rs)
    (id : RequestId) (result : Except Fault α) :
    OneSided rs (s, [reply id (result.map make)]) := by
  refine oneSided_reply bare fun a is => ?_
  cases result with
  | error fault => cases is
  | ok x => exact Except.ok.inj is ▸ h x

variable (sound : ∀ uri a, s.documents.get? uri = some a → a.Sound)

include sound

theorem oneSided_serve (now : Nat) (cancelled : Bool) (id : RequestId) (request : Request) :
    OneSided rs (s.serve now cancelled id request) := by
  cases request with
  | shutdown => exact oneSided_answer (s := { s with isShuttingDown := true }) bare trivial
  | folds uri =>
    refine oneSided_withDocument bare fun a _ => ?_
    let kept := s.documents.insert uri (a.foldsUnless cancelled).2
    exact oneSided_map (s := { s with documents := kept }) bare .folds (fun _ => trivial) id
      (a.foldsUnless cancelled).1
  | symbols uri =>
    exact oneSided_withDocument bare fun a _ => oneSided_map bare .symbols (fun _ => trivial) id _
  | highlights uri =>
    exact oneSided_withDocument bare fun a _ =>
      oneSided_map bare .highlights (fun _ => trivial) id _
  | completion uri p =>
    exact oneSided_withDocument bare fun a found =>
      oneSided_complete bare cached (sound uri a found) now id p
  | hover uri p => exact oneSided_withDocument bare fun a _ => oneSided_explain bare now id a p
  | keyHints uri => exact oneSided_withDocument bare fun a _ => oneSided_answer bare trivial

theorem oneSided_request (now : Nat) (cancelled : Bool) (id : RequestId)
    (body : Except Refusal Request) : OneSided rs (s.answer now cancelled id body) := by
  simp only [answer]
  split
  · exact ⟨bare, by simp⟩
  · split
    · exact ⟨bare, by simp⟩
    · exact oneSided_serve bare cached sound now cancelled id _

omit cached sound in
theorem oneSided_notice (n : Notification) : OneSided rs (s.notice n) := by
  cases n with
  | opened uri language version text => exact ⟨bare, by simp [notice, keep]⟩
  | changed uri version changes =>
    rw [notice]
    split
    · exact ⟨bare, by simp [keep]⟩
    · exact oneSided_same bare
  | closed uri => exact ⟨bare, by simp [notice]⟩
  | cancelled id =>
    rw [notice, cancel]
    split
    · next f found => exact ⟨oneSided_forget bare f, by simp⟩
    · exact oneSided_same bare
  | exit => exact oneSided_same bare

/-- A turn, with what it brings in. -/
theorem oneSided_turn (t : Turn) : OneSided (rs ++ (s.receipt? t).toList) (s.turn t) := by
  cases t with
  | tick now =>
    exact oneSided_settleAll bare now _ fun f hf => bare f (List.mem_of_mem_filter hf)
  | reorder pending =>
    obtain ⟨fs, perm, same⟩ := s.reorder_eq pending
    rw [turn, same]
    exact ⟨fun f hf => bare f (perm.mem_iff.mp hf), by simp⟩
  | message now waiting m =>
    cases m with
    | request id body =>
      have nothing : rs ++ (s.receipt? (.message now waiting (.request id body))).toList = rs :=
        List.append_nil rs
      rw [nothing]
      exact oneSided_request bare cached sound now _ id body
    | response id reply =>
      rw [turn, handle, resume, receipt?]
      split
      · next f found =>
        refine oneSided_settle (oneSided_forget bare f) (bare f (List.mem_of_find?_eq_some found))
          now fun value hv offered target asked => ?_
        refine ⟨⟨now, target, value⟩, List.mem_append_right _ ?_, rfl, rfl⟩
        have came : reply.result? = some value := hv
        simp [found, Forward.receipt?, asked, came]
      · exact oneSided_same bare
    | notification n =>
      cases n with
      | none => exact oneSided_same bare
      | some n =>
        rw [turn, handle]
        split
        · exact oneSided_same bare
        · exact oneSided_notice bare n

end

theorem receipts_append (s : Server) (ts us : List Turn) :
    s.receipts (ts ++ us) = s.receipts ts ++ (s.turns ts).1.receipts us := by
  induction ts generalizing s with
  | nil => rfl
  | cons t ts ih => rw [List.cons_append, receipts, ih, receipts, turns, List.append_assoc]

/-- All turns of a session, with what has come in over them. -/
theorem oneSided_turns (config : Config) (history : List Turn) :
    OneSided ((create config).receipts history) ((create config).turns history) := by
  induction history using List.reverseRecOn with
  | nil => exact oneSided_same (by simp [create])
  | append_singleton ts t ih =>
    have cached := cached_turns config ts
    have last := oneSided_turn ih.bare cached (fun uri a found => sound_turns config ts found) t
    have receipts : (create config).receipts (ts ++ [t]) = (create config).receipts ts
        ++ (((create config).turns ts).1.receipt? t).toList := by
      rw [receipts_append, Server.receipts, Server.receipts, List.append_nil]
    have before : OneSided ((create config).receipts (ts ++ [t])) ((create config).turns ts) := by
      refine ⟨ih.bare, fun id a sent => (ih.answers id a sent).mono ?_⟩
      rw [receipts]
      exact List.subset_append_left _ _
    rw [← receipts] at last
    rw [turns_append, turns, turns, List.append_nil]
    exact before.andThen last

end Server

/-! ## 4. Sessions -/

/-- Modifiers are offered in one kind of place, and the host is asked in another. Where something is
offered from the catalogue, the node under the cursor is in the modifiers of a handler, by its kind
and those of the nodes above it; where the host is asked, it opens a form. No node does both, so at
no position both is done.

For a server this means that after any turns of a session nothing is kept beside an open question to
the host, and that every completion it has answered is of the catalogue alone, or of one list of the
host alone. Sessions are turns, so it holds of them as well. -/
theorem completion_split (config : Config) :
    (∀ variant text p, let file := SourceFile.ofText variant text
      (file.modifiersAt p = [] ∨ file.targetAt? p = none)
        ∧ ∀ s, file.spotAt? p = some s → ∃ (i : Nat) (above : List Label),
          IsLeast (file.ranksAt p) (s.label.rank i)
          ∧ (file.root.withAncestors [])[i + 1]? = some (above, s.label)
          ∧ (file.modifiersAt p ≠ [] → s.label.InModifiers above)
          ∧ (file.targetAt? p ≠ none → s.label.OpensForm above)
          ∧ ¬(s.label.InModifiers above ∧ s.label.OpensForm above))
    ∧ (∀ history, let after := (Server.create config).turns history
      (∀ f ∈ after.1.pending, f.question.Bare)
        ∧ ∀ id a, .answer id a ∈ after.2 →
          a.OneSided ((Server.create config).receipts history))
    ∧ ∀ events, let after := (Session.create config).run events
      (∀ f ∈ after.1.server.pending, f.question.Bare)
        ∧ ∀ id a, .answer id a ∈ after.2 →
          a.OneSided ((Server.create config).receipts (Turn.ofEvents events)) := by
  refine ⟨fun variant text p => ⟨not_both_at variant text p, fun s chosen => ?_⟩,
    fun history => ?_, fun events => ?_⟩
  · obtain ⟨i, above, least, at_i, place⟩ := exists_place chosen
    exact ⟨i, above, least, at_i, place.inModifiers chosen, place.opensForm chosen,
      fun both => both.1.not_opensForm both.2⟩
  · have split := Server.oneSided_turns config history
    exact ⟨split.bare, split.answers⟩
  · have split := Server.oneSided_turns config (Turn.ofEvents events)
    rw [Session.turns_ofEvents] at split
    exact ⟨split.bare, split.answers⟩

end OffsideMarkup
