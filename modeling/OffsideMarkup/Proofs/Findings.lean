/-
OffsideMarkup.Proofs.Findings — where the findings about a file come from.

A finding of the grammar is an error about a token: the one that stands where something else was
expected, or the one that ends the line. `Reports` says so of a reader, and `reports_content` of the
reader of a line. Nothing is said here about when there is a finding.

A file adds warnings, all with one message, and takes the lines in the order of their nesting, which
is that of the text. So the findings with any other message are those of the lines one after the
other (`filter_diagnostics`), and those are the errors (`isError_diagnostics`).
-/
import OffsideMarkup.Proofs.OffsideStack

namespace OffsideMarkup

/-- An error about a token among these. -/
def Diagnostic.IsAbout (d : Diagnostic) (ts : List Token) : Prop :=
  ∃ t ∈ ts, ∃ message args, message.severity = .error ∧ d = .ofExtent message args t.extent

theorem Diagnostic.IsAbout.mono {d : Diagnostic} {ts us : List Token} (h : d.IsAbout ts)
    (sub : ∀ t ∈ ts, t ∈ us) : d.IsAbout us := by
  obtain ⟨t, ht, message, args, e⟩ := h
  exact ⟨t, sub t ht, message, args, e⟩

namespace Reader

variable {α β : Type} {stop t : Token} {ts given : List Token}

/-- All findings of a reader are about tokens that it was given, or the end of the line. -/
def Reports (r : Reader α) : Prop :=
  ∀ stop given, ∀ d ∈ (r stop given).findings, d.IsAbout (given ++ [stop])

/-- What is about an end of the tokens is about the tokens. -/
theorem isAbout_of_suffix {rest : List Token} {d : Diagnostic} (h : d.IsAbout (rest ++ [stop]))
    (suffix : rest <:+ given) : d.IsAbout (given ++ [stop]) := by
  refine h.mono fun t ht => ?_
  rcases List.mem_append.mp ht with ht | ht
  · exact List.mem_append_left _ (suffix.subset ht)
  · exact List.mem_append_right _ ht

theorem headD_mem (stop : Token) (given : List Token) : given.headD stop ∈ given ++ [stop] := by
  cases given with
  | nil => exact List.mem_singleton_self stop
  | cons t ts => exact List.mem_cons_self

/-! ## 1. Compositions -/

theorem reports_pure (a : α) : Reports (pure a : Reader α) :=
  fun _ _ d hd => absurd hd (by simp [pure, done])

theorem Reports.bind {r : Reader α} {next : α → Reader β} (h : Reports r)
    (h' : ∀ a, Reports (next a)) : Reports (r >>= next) := by
  intro stop given d hd
  rcases List.mem_append.mp hd with hd | hd
  · exact h stop given d hd
  · exact isAbout_of_suffix (h' _ stop _ d hd) (r stop given).rest_suffix

theorem reports_report {message : Message} (error : message.severity = .error)
    (args : List String) : Reports (report message args) := by
  intro stop given d hd
  obtain rfl := List.mem_singleton.mp hd
  exact ⟨_, headD_mem stop given, message, args, error, rfl⟩

/-! ## 2. Readers -/

theorem reports_current : Reports current := fun _ _ d hd => absurd hd (by simp [current])

theorem reports_here : Reports here := reports_current.bind fun _ => reports_pure _

theorem reports_literal (stops : KindSet) : Reports (literal stops) :=
  fun _ _ d hd => absurd hd (by simp [literal])

theorem reports_eat (kind : Kind) : Reports (eat kind) := by
  intro stop given d hd
  cases given with
  | nil => exact absurd hd (by simp [eat])
  | cons t ts => rw [eat] at hd; split at hd <;> exact absurd hd (by simp)

theorem reports_expect (kind : Kind) : Reports (expect kind) := by
  refine (reports_eat kind).bind fun found => ?_
  cases found with
  | some leaf => exact reports_pure leaf
  | none => exact (reports_report rfl _).bind fun _ => reports_here.bind fun _ => reports_pure _

theorem reports_behind (kind : Kind) {r : Reader α} (h : Reports r) : Reports (behind kind r) := by
  refine (reports_eat kind).bind fun found => ?_
  cases found with
  | some leaf => exact h.bind fun _ => reports_pure _
  | none => exact reports_pure _

theorem reports_name (stops : KindSet) : Reports (name stops) := by
  intro stop given d hd
  rcases given with _ | ⟨t, ts⟩
  · rw [name_of_stop (by simp)] at hd
    exact ⟨_, headD_mem stop [], _, _, rfl, List.mem_singleton.mp hd⟩
  · cases h : stops.has t.kind with
    | true =>
      rw [name_of_stop (by simpa using h)] at hd
      exact ⟨_, headD_mem stop (t :: ts), _, _, rfl, List.mem_singleton.mp hd⟩
    | false =>
      rw [name_of_content h] at hd
      exact reports_literal stops stop _ d hd

theorem reports_dotted {item : Reader α} (h : Reports item) : Reports (dotted item) := by
  intro stop given
  induction given using dotted.induct item stop with
  | case1 => intro d hd; rw [dotted_of_other item (by simp)] at hd; simp at hd
  | case2 t ts dot first later =>
    intro d hd
    rw [dotted_of_dot item dot] at hd
    rcases List.mem_append.mp hd with hd | hd
    · exact isAbout_of_suffix (h stop ts d hd) (List.suffix_cons t ts)
    · exact isAbout_of_suffix (later d hd)
        ((item stop ts).rest_suffix.trans (List.suffix_cons t ts))
  | case3 t ts other =>
    intro d hd
    rw [dotted_of_other item (by simpa using other)] at hd
    simp at hd

theorem reports_chain {item : Reader α} (h : Reports item) : Reports (chain item) :=
  h.bind fun _ => (reports_dotted h).bind fun _ => reports_pure _

theorem reports_mustacheBehind (opening : Leaf) : Reports (mustacheBehind opening) :=
  (reports_chain (reports_name _)).bind fun _ =>
    (reports_behind _ (reports_literal _)).bind fun _ =>
    (reports_expect _).bind fun _ => reports_pure _

theorem reports_parts (stops : KindSet) : Reports (parts stops) := by
  intro stop given
  induction given using parts.induct stops stop with
  | case1 => intro d hd; rw [parts_of_stop (by simp)] at hd; simp at hd
  | case2 t ts h => intro d hd; rw [parts_of_stop (by simpa using h)] at hd; simp at hd
  | case3 t ts go h hole later =>
    intro d hd
    rw [parts_of_hole (by simpa using go) h] at hd
    rcases List.mem_append.mp hd with hd | hd
    · exact isAbout_of_suffix (reports_mustacheBehind _ stop ts d hd) (List.suffix_cons t ts)
    · exact isAbout_of_suffix (later d hd)
        ((mustacheBehind (.ofToken t) stop ts).rest_suffix.trans (List.suffix_cons t ts))
  | case4 t ts go h inside later =>
    intro d hd
    rw [parts_of_literal (by simpa using go) h] at hd
    exact isAbout_of_suffix (later d hd)
      ((List.dropWhile_suffix _).trans (List.suffix_cons t ts))

theorem reports_template (stops : KindSet) : Reports (template stops) :=
  reports_here.bind fun _ => (reports_parts stops).bind fun _ => reports_pure _

/-- What a hole that was given up had to report is forgotten. -/
theorem reports_value : Reports value := by
  intro stop given d hd
  by_cases h : IsLone stop given
  · obtain ⟨t, ts, rfl, opening, lone⟩ := h
    rw [value_of_lone opening lone] at hd
    exact isAbout_of_suffix (reports_mustacheBehind _ stop ts d hd) (List.suffix_cons t ts)
  · rw [value_of_template h] at hd
    exact reports_template .empty stop given d hd

/-! ## 3. The forms of a line -/

theorem reports_tagBehind (sigil : Leaf) : Reports (tagBehind sigil) :=
  (reports_name _).bind fun _ =>
    (reports_behind _ (reports_chain (reports_template _))).bind fun _ =>
    (reports_behind _ (reports_name _)).bind fun _ => reports_pure _

theorem reports_attributeBehind (sigil : Leaf) : Reports (attributeBehind sigil) :=
  (reports_name _).bind fun _ => (reports_behind _ reports_value).bind fun _ => reports_pure _

theorem reports_propertyBehind (sigil : Leaf) : Reports (propertyBehind sigil) :=
  (reports_name _).bind fun _ => (reports_behind _ (reports_name _)).bind fun _ =>
    (reports_behind _ reports_value).bind fun _ => reports_pure _

theorem reports_handlerBehind (sigil : Leaf) : Reports (handlerBehind sigil) :=
  (reports_name _).bind fun _ => (reports_behind _ (reports_chain (reports_name _))).bind fun _ =>
    (reports_expect _).bind fun _ => (reports_name _).bind fun _ =>
      (reports_behind _ (reports_template _)).bind fun _ => reports_pure _

theorem reports_unreadable (kind : Kind) : Reports (unreadable kind) :=
  (reports_report rfl _).bind fun _ => (reports_literal _).bind fun _ => reports_pure _

/-- The findings about a line are about its tokens. -/
theorem reports_content : Reports content := by
  intro stop given d hd
  cases given with
  | nil => exact absurd hd (by simp [content, done])
  | cons t ts =>
    have behindSigil : ∀ {r : Reader Content}, Reports r → d ∈ (r stop ts).findings →
        d.IsAbout (t :: ts ++ [stop]) := fun h hd =>
      isAbout_of_suffix (h stop ts d hd) (List.suffix_cons t ts)
    rw [content] at hd
    dsimp only at hd
    split at hd
    · exact behindSigil ((reports_tagBehind _).bind fun _ => reports_pure _) hd
    · exact behindSigil ((reports_attributeBehind _).bind fun _ => reports_pure _) hd
    · exact behindSigil ((reports_propertyBehind _).bind fun _ => reports_pure _) hd
    · exact behindSigil ((reports_handlerBehind _).bind fun _ => reports_pure _) hd
    · exact behindSigil ((reports_template _).bind fun _ => reports_pure _) hd
    · exact behindSigil ((reports_template _).bind fun _ => reports_pure _) hd
    · exact behindSigil ((reports_name _).bind fun _ => reports_pure _) hd
    · exact behindSigil ((reports_name _).bind fun _ => reports_pure _) hd
    · exact behindSigil (reports_pure (.simple (.comment (some (.ofToken t))))) hd
    · exact reports_unreadable _ stop (t :: ts) d hd

end Reader

/-! ## 4. Files -/

/-- A warning has one message. -/
theorem message_misplaced {level : Nat} {owner : Option Tag} {l : Line} :
    ∀ d ∈ Line.misplaced level owner l, d.message = .unexpectedIndentation := by
  intro d hd
  rw [Line.misplaced] at hd
  cases found : l.frame.indent with
  | none => rw [found] at hd; exact absurd hd (by simp)
  | some indent =>
    rw [found] at hd
    dsimp only at hd
    split at hd
    · cases owner <;> obtain rfl := List.mem_singleton.mp hd <;> rfl
    · exact absurd hd (by simp)

/-- Warnings aside, what is reported of nested lines is reported of their rows. -/
theorem filter_diagnosticsOf {p : Message → Bool} (warning : p .unexpectedIndentation = false)
    (level : Nat) (owner : Option Tag) (ls : List Line) :
    (Line.diagnosticsOf level owner ls).filter (p ·.message)
      = ((Line.withinAll ls).map Line.row).flatMap (·.frame.findings.filter (p ·.message)) := by
  have none : ∀ (level : Nat) (owner : Option Tag) (l : Line),
      (Line.misplaced level owner l).filter (p ·.message) = [] := by
    intro level owner l
    refine List.filter_eq_nil_iff.mpr fun d hd => ?_
    rw [message_misplaced d hd, warning]
    exact Bool.false_ne_true
  match ls with
  | [] => rfl
  | .simple f b :: ls =>
    have later := filter_diagnosticsOf warning level owner ls
    rw [Line.diagnosticsOf, Line.diagnostics, List.filter_append, List.filter_append, none, later,
      Line.withinAll, Line.within, List.map_append, List.flatMap_append, List.map_singleton,
      List.flatMap_singleton]
    rfl
  | .element f t inner :: ls =>
    have later := filter_diagnosticsOf warning level owner ls
    have under := filter_diagnosticsOf warning (Line.blockLevel inner) (some t) inner
    rw [Line.diagnosticsOf, Line.diagnostics, List.filter_append, List.filter_append,
      List.filter_append, none, later, under, Line.withinAll, Line.within, List.map_append,
      List.map_cons, List.flatMap_append, List.flatMap_cons]
    rfl
termination_by sizeOf ls

theorem filter_diagnostics {p : Message → Bool} (warning : p .unexpectedIndentation = false)
    (variant : Variant) (text : List Char) :
    (SourceFile.ofText variant text).diagnostics.filter (p ·.message)
      = (Row.ofText text).flatMap (·.frame.findings.filter (p ·.message)) := by
  rw [SourceFile.diagnostics, filter_diagnosticsOf warning, map_row_withinAll_lines]

/-- The findings of the grammar are errors. -/
theorem isError_findings {text : List Char} {r : Row} (hr : r ∈ Row.ofText text) :
    ∀ d ∈ r.frame.findings, d.isError = true := by
  obtain ⟨l, -, rfl⟩ := List.mem_map.mp hr
  rw [frame_ofTokenLine]
  intro d hd
  obtain ⟨t, -, message, args, error, rfl⟩ := Reader.reports_content l.stop l.body d hd
  show (message.severity == .error) = true
  rw [error]
  rfl

/-- A file is free of errors if its lines are. -/
theorem isError_diagnostics (variant : Variant) (text : List Char) :
    (∀ d ∈ (SourceFile.ofText variant text).diagnostics, d.isError = false)
      ↔ ∀ r ∈ Row.ofText text, r.frame.findings = [] := by
  have errors := filter_diagnostics (p := (·.severity == .error)) rfl variant text
  have free : (∀ d ∈ (SourceFile.ofText variant text).diagnostics, d.isError = false)
      ↔ (SourceFile.ofText variant text).diagnostics.filter Diagnostic.isError = [] := by
    simp [List.filter_eq_nil_iff]
  rw [free]
  refine (Iff.of_eq (congrArg (· = []) errors)).trans ?_
  rw [List.flatMap_eq_nil_iff]
  refine forall₂_congr fun r hr => ?_
  rw [List.filter_eq_self.mpr]
  exact isError_findings hr

end OffsideMarkup
