/-
OffsideMarkup.Proofs.LineGrammar — the readers accept a language.

The forms of a line, as a language over kinds of tokens. It is put together from single tokens by
union, concatenation and star, and says nothing about how a line is read: where a name ends, what a
text takes, or that a value is first tried as a hole. The readers make these choices, and
`Recognises` says that they make them right. From tokens that a reader takes without a finding comes
a word of its language (`sound`), and a word of its language is taken without a finding, neither
more nor less of it, wherever something comes next that may follow (`complete`).

* `Recognises.bind` — one reader, then another. What follows the first is what the second starts
  with, or what follows that (`LeadsTo`).
* `recognises_parts` — a template: its loop gathers tokens that the language takes one by one.
* `recognises_value` — a value: whether it is a hole by itself makes no difference to what is a
  finding.
* `findings_content` — a line.

`accepts_iff_grammar` is about a text, its lines and the tokens on them.
-/
import Mathlib.Computability.Language
import OffsideMarkup.Proofs.Findings

namespace OffsideMarkup

open Computability

/-! ## 1. The grammar -/

namespace LineGrammar

/-- One token of a kind. -/
def tok (k : Kind) : Language Kind := {[k]}

/-- One token of none of these kinds, and none that ends the line. -/
def other (ks : List Kind) : Language Kind := {w | ∃ k, w = [k] ∧ k ∉ ks ∧ k.endsLine = false}

def opt (l : Language Kind) : Language Kind := 1 + l

/-- One token or more, none of these kinds. -/
def name (ks : List Kind) : Language Kind := other ks * (other ks)∗

def mustache : Language Kind :=
  tok .mustacheOpen
    * (name [.dot, .equals, .mustacheClose] * (tok .dot * name [.dot, .equals, .mustacheClose])∗
      * (opt (tok .equals * (other [.mustacheClose])∗) * tok .mustacheClose))

/-- Holes, and other tokens of none of these kinds. -/
def text (ks : List Kind) : Language Kind := (mustache + other (.mustacheOpen :: ks))∗

def elementLine : Language Kind :=
  tok .greaterThan
    * (name [.dot, .hashSign]
      * ((tok .dot * text [.dot, .hashSign])∗ * opt (tok .hashSign * name [])))

def attributeLine : Language Kind :=
  tok .hashSign * (name [.equals] * opt (tok .equals * text []))

def propertyLine : Language Kind :=
  tok .percentSign
    * (name [.equals, .atSign]
      * (opt (tok .atSign * name [.equals]) * opt (tok .equals * text [])))

def handlerLine : Language Kind :=
  tok .atSign
    * (name [.dot, .equals]
      * ((tok .dot * name [.dot, .equals])∗
        * (tok .equals * (name [.colon] * opt (tok .colon * text [])))))

def textLine : Language Kind := (tok .dot + tok .bar) * text []

def mountingPoint : Language Kind := (tok .plus + tok .minus) * name []

/-- What may stand on a line behind its indentation: nothing, a comment, or one of six forms. -/
def content : Language Kind :=
  1 + tok .comment + elementLine + attributeLine + propertyLine + handlerLine + textLine
    + mountingPoint

/-- What may stand on a line. -/
def line : Language Kind := opt (tok .indentation) * content

/-! ## 2. Words -/

variable {k : Kind} {ks : List Kind} {w : List Kind} {l m : Language Kind}

theorem mem_tok : w ∈ tok k ↔ w = [k] := Iff.rfl

theorem cons_mem_tok_mul {k' : Kind} : k :: w ∈ tok k' * l ↔ k = k' ∧ w ∈ l := by
  rw [Language.mem_mul]
  constructor
  · rintro ⟨_, rfl, v, hv, e⟩
    obtain ⟨rfl, rfl⟩ := List.cons.inj e
    exact ⟨rfl, hv⟩
  · rintro ⟨rfl, hw⟩
    exact ⟨[k], rfl, w, hw, rfl⟩

theorem nil_notMem_tok_mul : [] ∉ tok k * l := by
  rw [Language.mem_mul]
  rintro ⟨_, rfl, v, -, e⟩
  exact absurd e (by simp)

/-- A run of tokens is free of the kinds that stop it. -/
theorem mem_kstar_other :
    w ∈ (other ks)∗ ↔ ∀ k ∈ w, k ∉ ks ∧ k.endsLine = false := by
  constructor
  · rintro ⟨ws, rfl, each⟩ k hk
    obtain ⟨v, hv, hk⟩ := List.mem_flatten.mp hk
    obtain ⟨k', rfl, free⟩ := each v hv
    rwa [List.mem_singleton.mp hk]
  · intro free
    refine ⟨w.map fun k => [k], by simp [← List.flatMap_def], ?_⟩
    intro v hv
    obtain ⟨k, hk, rfl⟩ := List.mem_map.mp hv
    exact ⟨k, rfl, free k hk⟩

theorem mem_name :
    w ∈ name ks ↔ w ≠ [] ∧ ∀ k ∈ w, k ∉ ks ∧ k.endsLine = false := by
  rw [name, Language.mem_mul]
  constructor
  · rintro ⟨_, ⟨k, rfl, free⟩, v, hv, rfl⟩
    exact ⟨by simp, List.forall_mem_cons.mpr ⟨free, mem_kstar_other.mp hv⟩⟩
  · rintro ⟨some, free⟩
    cases w with
    | nil => exact absurd rfl some
    | cons k w =>
      rw [List.forall_mem_cons] at free
      exact ⟨[k], ⟨k, rfl, free.1⟩, w, mem_kstar_other.mpr free.2, rfl⟩

theorem append_mem_text {v : List Kind} (h : v ∈ mustache + other (.mustacheOpen :: ks))
    (h' : w ∈ text ks) : v ++ w ∈ text ks := by
  obtain ⟨ws, rfl, each⟩ := h'
  exact ⟨v :: ws, rfl, List.forall_mem_cons.mpr ⟨h, each⟩⟩

end LineGrammar

open LineGrammar

namespace Reader

/-! ## 3. Readers of a language -/

section
variable {l m : Language Kind} {k : Kind} {front mid follow : List Kind}

/-- A word of the language starts with one of these kinds, or what follows it does. -/
def LeadsTo (l : Language Kind) (follow front : List Kind) : Prop :=
  ∀ taken rest : List Token, taken.map Token.kind ∈ l → Before follow rest →
    Before front (taken ++ rest)

theorem leadsTo_tok_mul (h : k ∈ front) (l : Language Kind) (follow : List Kind) :
    LeadsTo (tok k * l) follow front := by
  intro taken rest word _ t ht
  cases taken with
  | nil => exact absurd word nil_notMem_tok_mul
  | cons u us =>
    obtain rfl : u = t := by simpa using ht
    rw [(cons_mem_tok_mul.mp word).1]
    exact h

theorem leadsTo_one (h : follow ⊆ front) : LeadsTo 1 follow front := by
  intro taken rest word next t ht
  obtain rfl : taken = [] := List.map_eq_nil_iff.mp word
  exact h (next t ht)

theorem LeadsTo.add (h : LeadsTo l follow front) (h' : LeadsTo m follow front) :
    LeadsTo (l + m) follow front :=
  fun taken rest word next => word.elim (h taken rest · next) (h' taken rest · next)

theorem LeadsTo.mul (h : LeadsTo m follow mid) (h' : LeadsTo l mid front) :
    LeadsTo (l * m) follow front := by
  intro taken rest word next
  obtain ⟨_, hv, _, hw, e⟩ := Language.mem_mul.mp word
  obtain ⟨first, second, rfl, rfl, rfl⟩ := List.append_eq_map_iff.mp e
  rw [List.append_assoc]
  exact h' first (second ++ rest) hv (h second rest hw next)

theorem leadsTo_opt (h : k ∈ front) (sub : follow ⊆ front) (l : Language Kind) :
    LeadsTo (opt (tok k * l)) follow front := (leadsTo_one sub).add (leadsTo_tok_mul h l follow)

theorem leadsTo_kstar (h : k ∈ front) (sub : follow ⊆ front) (l : Language Kind) :
    LeadsTo (tok k * l)∗ follow front := by
  rw [← Language.one_add_self_mul_kstar_eq_kstar, mul_assoc]
  exact leadsTo_opt h sub _

theorem leadsTo_all (l : Language Kind) : LeadsTo l follow Kind.all :=
  fun _ _ _ _ t _ => Kind.mem_all t.kind

end

variable {α β : Type} {l m : Language Kind} {k : Kind} {ks mid follow : List Kind}

/-- A reader of a language. What it takes of a line without a finding is a word, and a word is taken
without a finding, with nothing behind it, where one of these kinds follows or the line ends. -/
structure Recognises (r : Reader α) (l : Language Kind) (follow : List Kind) : Prop where
  sound : ∀ stop given, (∀ t ∈ given, t.kind.endsLine = false) → (r stop given).findings = [] →
    ∃ taken, given = taken ++ (r stop given).rest ∧ taken.map Token.kind ∈ l
  complete : ∀ stop taken rest, taken.map Token.kind ∈ l → Before follow rest →
    (r stop (taken ++ rest)).findings = [] ∧ (r stop (taken ++ rest)).rest = rest

theorem recognises_pure (a : α) (follow : List Kind) :
    Recognises (pure a : Reader α) 1 follow where
  sound _ given _ _ := ⟨[], rfl, rfl⟩
  complete _ taken rest word _ := by
    obtain rfl : taken = [] := List.map_eq_nil_iff.mp word
    exact ⟨rfl, rfl⟩

theorem Recognises.bind {r : Reader α} {next : α → Reader β} (h : Recognises r l mid)
    (h' : ∀ a, Recognises (next a) m follow) (leads : LeadsTo m follow mid) :
    Recognises (r >>= next) (l * m) follow where
  sound stop given inner free := by
    obtain ⟨first, second⟩ := List.append_eq_nil_iff.mp free
    obtain ⟨taken, split, word⟩ := h.sound stop given inner first
    have behind : ∀ t ∈ (r stop given).rest, t.kind.endsLine = false :=
      fun t ht => inner t ((r stop given).rest_suffix.subset ht)
    obtain ⟨more, split', word'⟩ := (h' _).sound stop _ behind second
    refine ⟨taken ++ more, ?_, ?_⟩
    · rw [List.append_assoc]
      exact split.trans (congrArg (taken ++ ·) split')
    · rw [List.map_append]
      exact Language.append_mem_mul word word'
  complete stop taken rest word follows := by
    obtain ⟨_, hv, _, hw, e⟩ := Language.mem_mul.mp word
    obtain ⟨first, second, rfl, rfl, rfl⟩ := List.append_eq_map_iff.mp e
    obtain ⟨free, left⟩ := h.complete stop first (second ++ rest) hv (leads second rest hw follows)
    have later : ∀ a given, given = second ++ rest →
        (next a stop given).findings = [] ∧ (next a stop given).rest = rest := by
      rintro a _ rfl
      exact (h' a).complete stop second rest hw follows
    rw [List.append_assoc]
    obtain ⟨free', left'⟩ := later (r stop (first ++ (second ++ rest))).value _ left
    exact ⟨List.append_eq_nil_iff.mpr ⟨free, free'⟩, left'⟩

/-- A last step that only puts the parts together. -/
theorem Recognises.bind_pure {r : Reader α} (h : Recognises r l follow) (f : α → β) :
    Recognises (r >>= fun a => pure (f a)) l follow := by
  have := h.bind (fun a => recognises_pure (f a) follow) (leadsTo_one fun _ hk => hk)
  rwa [mul_one] at this

/-- A reader that reads a line to its end decides whether the line is a word. -/
theorem Recognises.iff_mem {r : Reader α} (h : Recognises r l []) {stop : Token}
    {given : List Token} (whole : (r stop given).rest = [])
    (inner : ∀ t ∈ given, t.kind.endsLine = false) :
    (r stop given).findings = [] ↔ given.map Token.kind ∈ l := by
  constructor
  · intro free
    obtain ⟨taken, split, word⟩ := h.sound stop given inner free
    rw [whole, List.append_nil] at split
    rwa [split]
  · intro word
    have := (h.complete stop given [] word (by simp [Before])).1
    rwa [List.append_nil] at this

/-- The same if what was read is put into a line. -/
theorem Recognises.iff_mem_of_pure {r : Reader α} (h : Recognises r l []) (f : α → β) {stop : Token}
    {given : List Token} (whole : (r stop given).rest = [])
    (inner : ∀ t ∈ given, t.kind.endsLine = false) :
    ((r >>= fun a => pure (f a)) stop given).findings = [] ↔ given.map Token.kind ∈ l :=
  (h.bind_pure f).iff_mem whole inner

/-! ## 4. Names and chains -/

theorem has_ofList (ks : List Kind) (k : Kind) : (KindSet.ofList ks).has k = true ↔ k ∈ ks :=
  List.contains_iff_mem

/-- A run of tokens is taken up to where it stops. -/
theorem takes_of_free {taken rest : List Token} (free : ∀ t ∈ taken, t.kind ∉ ks)
    (next : Before ks rest) :
    (taken ++ rest).dropWhile (fun t => !(KindSet.ofList ks).has t.kind) = rest := by
  rw [List.dropWhile_append_of_pos]
  · cases rest with
    | nil => rfl
    | cons t ts =>
      have := (has_ofList ks t.kind).mpr (next t rfl)
      rw [List.dropWhile_cons_of_neg (by simp [this])]
  · intro t ht
    simpa [KindSet.ofList] using free t ht

theorem recognises_literal (ks : List Kind) :
    Recognises (literal (.ofList ks)) (other ks)∗ ks where
  sound stop given inner _ := by
    refine ⟨given.takeWhile fun t => !(KindSet.ofList ks).has t.kind,
      List.takeWhile_append_dropWhile.symm, mem_kstar_other.mpr ?_⟩
    intro k hk
    obtain ⟨t, ht, rfl⟩ := List.mem_map.mp hk
    have free := List.all_eq_true.mp List.all_takeWhile t ht
    refine ⟨by simpa [KindSet.ofList] using free, inner t ((List.takeWhile_prefix _).subset ht)⟩
  complete stop taken rest word next := by
    refine ⟨rfl, takes_of_free ?_ next⟩
    exact fun t ht => (mem_kstar_other.mp word t.kind (List.mem_map_of_mem ht)).1

theorem recognises_name (ks : List Kind) :
    Recognises (name (.ofList ks)) (LineGrammar.name ks) ks where
  sound stop given inner free := by
    rcases given with _ | ⟨t, ts⟩
    · rw [name_of_stop (by simp)] at free
      exact absurd free (by simp)
    · cases h : (KindSet.ofList ks).has t.kind with
      | true =>
        rw [name_of_stop (by simpa using h)] at free
        exact absurd free (by simp)
      | false =>
        obtain ⟨taken, split, word⟩ := (recognises_literal ks).sound stop (t :: ts) inner rfl
        rw [name_of_content h]
        refine ⟨taken, split, mem_name.mpr ⟨?_, mem_kstar_other.mp word⟩⟩
        rintro nothing
        rw [List.map_eq_nil_iff.mp nothing, literal_of_content h, List.nil_append] at split
        have := congrArg List.length split
        have := (List.dropWhile_suffix (l := ts)
          fun u : Token => !(KindSet.ofList ks).has u.kind).length_le
        simp only [List.length_cons] at *
        omega
  complete stop taken rest word next := by
    obtain ⟨some, free⟩ := mem_name.mp word
    cases taken with
    | nil => exact absurd rfl some
    | cons t ts =>
      have go : (KindSet.ofList ks).has t.kind = false := by
        simpa [KindSet.ofList] using (free t.kind List.mem_cons_self).1
      rw [List.cons_append, name_of_content go, ← List.cons_append]
      exact (recognises_literal ks).complete stop (t :: ts) rest (mem_kstar_other.mpr free) next

theorem recognises_expect (k : Kind) (follow : List Kind) :
    Recognises (expect k) (tok k) follow where
  sound stop given _ free := by
    rcases head_cases k given with ⟨t, ts, rfl, h⟩ | other
    · rw [expect_of_kind h]
      exact ⟨[t], rfl, congrArg ([·]) h⟩
    · rw [expect_of_other other] at free
      exact absurd free (by simp)
  complete stop taken rest word _ := by
    obtain ⟨t, rfl, h⟩ := List.map_eq_singleton_iff.mp word
    rw [List.singleton_append, expect_of_kind h]
    exact ⟨rfl, rfl⟩

theorem recognises_behind {r : Reader α} (h : Recognises r l follow) (alien : k ∉ follow) :
    Recognises (behind k r) (opt (tok k * l)) follow where
  sound stop given inner free := by
    rcases head_cases k given with ⟨t, ts, rfl, is⟩ | other
    · rw [behind_of_kind r is] at free ⊢
      obtain ⟨taken, split, word⟩ := h.sound stop ts (fun u hu => inner u (.tail t hu)) free
      exact ⟨t :: taken, congrArg (t :: ·) split, .inr (cons_mem_tok_mul.mpr ⟨is, word⟩)⟩
    · rw [behind_of_other r other]
      exact ⟨[], rfl, .inl rfl⟩
  complete stop taken rest word next := by
    rcases word with word | word
    · obtain rfl : taken = [] := List.map_eq_nil_iff.mp word
      have other : ∀ t ∈ rest.head?, t.kind ≠ k := fun t ht is => alien (is ▸ next t ht)
      rw [List.nil_append, behind_of_other r other]
      exact ⟨rfl, rfl⟩
    · cases taken with
      | nil => exact absurd word nil_notMem_tok_mul
      | cons t ts =>
        obtain ⟨is, word⟩ := cons_mem_tok_mul.mp word
        rw [List.cons_append, behind_of_kind r is]
        exact h.complete stop ts rest word next

theorem recognises_dotted {item : Reader α} (h : Recognises item l (.dot :: follow))
    (alien : Kind.dot ∉ follow) : Recognises (dotted item) (tok .dot * l)∗ follow where
  sound stop given := by
    induction given using dotted.induct item stop with
    | case1 =>
      intro _ _
      rw [dotted_of_other item (by simp)]
      exact ⟨[], rfl, Language.nil_mem_kstar _⟩
    | case2 t ts dot first later =>
      intro inner free
      rw [dotted_of_dot item dot] at free ⊢
      obtain ⟨here, there⟩ := List.append_eq_nil_iff.mp free
      have inside : ∀ u ∈ ts, u.kind.endsLine = false := fun u hu => inner u (.tail t hu)
      obtain ⟨taken, split, word⟩ := h.sound stop ts inside here
      obtain ⟨more, split', words⟩ :=
        later (fun u hu => inside u ((item stop ts).rest_suffix.subset hu)) there
      refine ⟨t :: taken ++ more, ?_, ?_⟩
      · rw [List.cons_append, List.cons_append, List.append_assoc]
        exact congrArg (t :: ·) (split.trans (congrArg (taken ++ ·) split'))
      · rw [← Language.one_add_self_mul_kstar_eq_kstar, List.map_append]
        exact .inr (Language.append_mem_mul (cons_mem_tok_mul.mpr ⟨dot, word⟩) words)
    | case3 t ts other =>
      intro _ _
      rw [dotted_of_other item (by simpa using other)]
      exact ⟨[], rfl, Language.nil_mem_kstar _⟩
  complete stop taken rest word next := by
    obtain ⟨words, split, each⟩ := word
    induction words generalizing taken with
    | nil =>
      obtain rfl : taken = [] := List.map_eq_nil_iff.mp split
      have other : ∀ t ∈ rest.head?, t.kind ≠ .dot := fun t ht is => alien (is ▸ next t ht)
      rw [List.nil_append, dotted_of_other item other]
      exact ⟨rfl, rfl⟩
    | cons w words ih =>
      rw [List.forall_mem_cons] at each
      rw [List.flatten_cons] at split
      obtain ⟨first, more, rfl, rfl, hm⟩ := List.map_eq_append_iff.mp split
      have later := ih more hm each.2
      cases first with
      | nil => exact absurd each.1 nil_notMem_tok_mul
      | cons t ts =>
        obtain ⟨dot, word⟩ := cons_mem_tok_mul.mp each.1
        have leads : Before (.dot :: follow) (more ++ rest) :=
          leadsTo_kstar List.mem_cons_self (List.subset_cons_self _ _) l more rest
            ⟨words, hm, each.2⟩ next
        obtain ⟨free, left⟩ := h.complete stop ts (more ++ rest) word leads
        rw [← left] at later
        rw [List.append_assoc, List.cons_append, dotted_of_dot item dot]
        exact ⟨List.append_eq_nil_iff.mpr ⟨free, later.1⟩, later.2⟩

theorem recognises_chain {item : Reader α} (h : Recognises item l (.dot :: follow))
    (alien : Kind.dot ∉ follow) : Recognises (chain item) (l * (tok .dot * l)∗) follow :=
  h.bind (fun _ => (recognises_dotted h alien).bind_pure _)
    (leadsTo_kstar List.mem_cons_self (List.subset_cons_self _ _) l)

/-- A chain behind a dot. -/
theorem recognises_behind_chain {item : Reader α} (follow : List Kind)
    (h : Recognises item l (.dot :: follow)) (alien : Kind.dot ∉ follow) :
    Recognises (behind .dot (chain item)) (tok .dot * l)∗ follow := by
  have := recognises_behind (recognises_chain h alien) alien
  rwa [opt, ← mul_assoc, Language.one_add_self_mul_kstar_eq_kstar] at this

/-! ## 5. Holes, templates and values -/

theorem recognises_mustacheBehind (opening : Leaf) (follow : List Kind) :
    Recognises (mustacheBehind opening)
      (LineGrammar.name [.dot, .equals, .mustacheClose]
        * (tok .dot * LineGrammar.name [.dot, .equals, .mustacheClose])∗
        * (opt (tok .equals * (other [.mustacheClose])∗) * tok .mustacheClose)) follow := by
  have path := recognises_chain (recognises_name [.dot, .equals, .mustacheClose]) (by decide)
  have fallback :=
    recognises_behind (k := .equals) (recognises_literal [.mustacheClose]) (by decide)
  have closing := recognises_expect .mustacheClose follow
  have close : LeadsTo (tok .mustacheClose) follow [.mustacheClose] := by
    have := leadsTo_tok_mul (List.mem_singleton_self Kind.mustacheClose) 1 follow
    rwa [mul_one] at this
  refine path.bind (fun _ => fallback.bind (fun _ => closing.bind_pure _) close) ?_
  exact close.mul (leadsTo_opt List.mem_cons_self (List.subset_cons_self _ _) _)

/-- Behind the rest of a piece a template goes on as it would with a piece of its own. -/
theorem parts_dropWhile_inPiece (stop : Token) (ts : List Token) :
    (parts (.ofList ks) stop (ts.dropWhile (inPiece (.ofList ks)))).findings
        = (parts (.ofList ks) stop ts).findings
      ∧ (parts (.ofList ks) stop (ts.dropWhile (inPiece (.ofList ks)))).rest
        = (parts (.ofList ks) stop ts).rest := by
  cases ts with
  | nil => exact ⟨rfl, rfl⟩
  | cons u us =>
    cases piece : inPiece (.ofList ks) u with
    | false =>
      rw [List.dropWhile_cons_of_neg (by simp [piece])]
      exact ⟨rfl, rfl⟩
    | true =>
      obtain ⟨plain, go⟩ : u.kind ≠ .mustacheOpen ∧ (KindSet.ofList ks).has u.kind = false := by
        simpa [inPiece, KindSet.insert] using piece
      rw [List.dropWhile_cons_of_pos piece, parts_of_literal go plain]
      exact ⟨rfl, rfl⟩

/-- A token of a literal piece makes no difference to what a template finds and where it stops. -/
theorem parts_of_plain (stop : Token) {t : Token} (ts : List Token)
    (go : (KindSet.ofList ks).has t.kind = false) (plain : t.kind ≠ .mustacheOpen) :
    (parts (.ofList ks) stop (t :: ts)).findings = (parts (.ofList ks) stop ts).findings
      ∧ (parts (.ofList ks) stop (t :: ts)).rest = (parts (.ofList ks) stop ts).rest := by
  rw [parts_of_literal go plain]
  exact parts_dropWhile_inPiece stop ts

theorem recognises_parts (holes : Kind.mustacheOpen ∉ ks) :
    Recognises (parts (.ofList ks)) (LineGrammar.text ks) ks where
  sound stop given inner free := by
    -- The pieces of the reader are not those of the language, so the induction is on the tokens.
    induction size : given.length using Nat.strongRecOn generalizing given with
    | _ n ih =>
    subst size
    rcases given with _ | ⟨t, ts⟩
    · rw [parts_of_stop (by simp)]
      exact ⟨[], rfl, Language.nil_mem_kstar _⟩
    have inside : ∀ u ∈ ts, u.kind.endsLine = false := fun u hu => inner u (.tail t hu)
    cases go : (KindSet.ofList ks).has t.kind with
    | true =>
      rw [parts_of_stop (by simpa using go)]
      exact ⟨[], rfl, Language.nil_mem_kstar _⟩
    | false =>
      by_cases h : t.kind = .mustacheOpen
      · rw [parts_of_hole go h] at free ⊢
        obtain ⟨here, there⟩ := List.append_eq_nil_iff.mp free
        obtain ⟨taken, split, word⟩ :=
          (recognises_mustacheBehind (.ofToken t) []).sound stop ts inside here
        obtain ⟨more, split', words⟩ := ih _
          (Nat.lt_succ_of_le (mustacheBehind (.ofToken t) stop ts).length_le)
          (mustacheBehind (.ofToken t) stop ts).rest
          (fun u hu => inside u ((mustacheBehind (.ofToken t) stop ts).rest_suffix.subset hu))
          there rfl
        refine ⟨t :: taken ++ more, ?_, ?_⟩
        · rw [List.cons_append, List.cons_append, List.append_assoc]
          exact congrArg (t :: ·) (split.trans (congrArg (taken ++ ·) split'))
        · rw [List.map_append]
          exact append_mem_text (.inl (cons_mem_tok_mul.mpr ⟨h, word⟩)) words
      · obtain ⟨findings, left⟩ := parts_of_plain stop ts go h
        rw [findings] at free
        obtain ⟨taken, split, word⟩ := ih _ (Nat.lt_succ_self _) ts inside free rfl
        have free : t.kind ∉ ks := by simpa [KindSet.ofList] using go
        refine ⟨t :: taken, ?_, ?_⟩
        · rw [left, List.cons_append, ← split]
        · refine append_mem_text (v := [t.kind]) (.inr ⟨t.kind, rfl, ?_, inner t (.head ts)⟩) word
          simpa [List.mem_cons, h] using free
  complete stop taken rest word next := by
    obtain ⟨words, split, each⟩ := word
    induction words generalizing taken with
    | nil =>
      obtain rfl : taken = [] := List.map_eq_nil_iff.mp split
      have stops : ∀ t ∈ rest.head?, (KindSet.ofList ks).has t.kind = true :=
        fun t ht => (has_ofList ks t.kind).mpr (next t ht)
      rw [List.nil_append, parts_of_stop stops]
      exact ⟨rfl, rfl⟩
    | cons w words ih =>
      rw [List.forall_mem_cons] at each
      rw [List.flatten_cons] at split
      obtain ⟨first, more, rfl, rfl, hm⟩ := List.map_eq_append_iff.mp split
      have later := ih more hm each.2
      rw [List.append_assoc]
      rcases each.1 with hole | ⟨k, single, free⟩
      · cases first with
        | nil => exact absurd hole nil_notMem_tok_mul
        | cons t ts =>
          obtain ⟨opening, word⟩ := cons_mem_tok_mul.mp hole
          have go : (KindSet.ofList ks).has t.kind = false := by
            simpa [KindSet.ofList, opening] using holes
          obtain ⟨free, left⟩ := (recognises_mustacheBehind (.ofToken t) Kind.all).complete stop ts
            (more ++ rest) word fun u _ => Kind.mem_all u.kind
          rw [← left] at later
          rw [List.cons_append, parts_of_hole go opening]
          exact ⟨List.append_eq_nil_iff.mpr ⟨free, later.1⟩, later.2⟩
      · obtain ⟨t, rfl, rfl⟩ := List.map_eq_singleton_iff.mp single
        rw [List.mem_cons, not_or] at free
        have go : (KindSet.ofList ks).has t.kind = false := by
          simpa [KindSet.ofList] using free.1.2
        obtain ⟨findings, left⟩ := parts_of_plain stop (more ++ rest) go free.1.1
        rw [List.singleton_append, findings, left]
        exact later

theorem recognises_template {ks : List Kind} (holes : Kind.mustacheOpen ∉ ks) :
    Recognises (template (.ofList ks)) (LineGrammar.text ks) ks := by
  have start : Recognises here 1 Kind.all := by
    refine ⟨fun _ _ _ _ => ⟨[], rfl, rfl⟩, fun _ taken rest word _ => ?_⟩
    obtain rfl : taken = [] := List.map_eq_nil_iff.mp word
    exact ⟨rfl, rfl⟩
  rw [← one_mul (LineGrammar.text ks)]
  exact start.bind (fun _ => (recognises_parts holes).bind_pure _) (leadsTo_all _)

/-- A value is a text. Where it is one hole by itself, the hole is all that the template would
find. -/
theorem findings_value (stop : Token) (given : List Token) :
    (value stop given).findings = (template .empty stop given).findings := by
  by_cases h : IsLone stop given
  · obtain ⟨t, ts, rfl, opening, lone⟩ := h
    have none : (parts .empty stop (mustacheBehind (.ofToken t) stop ts).rest).findings = [] := by
      rw [lone, parts_of_stop (by simp)]
    rw [value_of_lone opening lone]
    show _ = [] ++ ((parts .empty stop (t :: ts)).findings ++ [])
    rw [parts_of_hole rfl opening, List.nil_append, List.append_nil]
    rw [none, List.append_nil]
  · rw [value_of_template h]

theorem recognises_value : Recognises value (LineGrammar.text []) [] where
  sound stop given inner free := by
    have text := recognises_template (List.not_mem_nil)
    have whole := (readsUpTo_template [] stop given).eq_nil
    refine ⟨given, ?_, (text.iff_mem whole inner).mp (findings_value stop given ▸ free)⟩
    rw [(readsUpTo_value stop given).eq_nil, List.append_nil]
  complete stop taken rest word next := by
    obtain rfl := next.eq_nil
    have text := (recognises_template (List.not_mem_nil)).complete stop taken [] word next
    exact ⟨(findings_value stop _).trans text.1, (readsUpTo_value stop _).eq_nil⟩

/-! ## 6. The forms of a line -/

theorem recognises_tagBehind (sigil : Leaf) :
    Recognises (tagBehind sigil)
      (LineGrammar.name [.dot, .hashSign]
        * ((tok .dot * LineGrammar.text [.dot, .hashSign])∗
          * opt (tok .hashSign * LineGrammar.name []))) [] := by
  have name := recognises_name [.dot, .hashSign]
  have classes := recognises_behind_chain [.hashSign]
    (recognises_template (by decide : _ ∉ [Kind.dot, .hashSign])) (by decide)
  have reference := recognises_behind (k := .hashSign) (recognises_name []) (by simp)
  have last : LeadsTo (opt (tok .hashSign * LineGrammar.name [])) [] [.hashSign] :=
    leadsTo_opt (by simp) (by simp) _
  refine name.bind (fun _ => classes.bind (fun _ => reference.bind_pure _) last) ?_
  exact last.mul (leadsTo_kstar (by simp) (by simp) _)

theorem recognises_attributeBehind (sigil : Leaf) :
    Recognises (attributeBehind sigil)
      (LineGrammar.name [.equals] * opt (tok .equals * LineGrammar.text [])) [] := by
  have binding := recognises_name [.equals]
  have value := recognises_behind (k := .equals) recognises_value (by simp)
  exact binding.bind (fun _ => value.bind_pure _) (leadsTo_opt (by simp) (by simp) _)

theorem recognises_propertyBehind (sigil : Leaf) :
    Recognises (propertyBehind sigil)
      (LineGrammar.name [.equals, .atSign]
        * (opt (tok .atSign * LineGrammar.name [.equals])
          * opt (tok .equals * LineGrammar.text []))) [] := by
  have binding := recognises_name [.equals, .atSign]
  have trigger := recognises_behind (k := .atSign) (recognises_name [.equals]) (by decide)
  have value := recognises_behind (k := .equals) recognises_value (by simp)
  have last : LeadsTo (opt (tok .equals * LineGrammar.text [])) [] [.equals] :=
    leadsTo_opt (by simp) (by simp) _
  refine binding.bind (fun _ => trigger.bind (fun _ => value.bind_pure _) last) ?_
  exact last.mul (leadsTo_opt (by simp) (by simp) _)

theorem recognises_handlerBehind (sigil : Leaf) :
    Recognises (handlerBehind sigil)
      (LineGrammar.name [.dot, .equals]
        * ((tok .dot * LineGrammar.name [.dot, .equals])∗
          * (tok .equals
            * (LineGrammar.name [.colon] * opt (tok .colon * LineGrammar.text []))))) [] := by
  have event := recognises_name [.dot, .equals]
  have modifiers := recognises_behind_chain [.equals]
    (recognises_name [.dot, .equals]) (by decide)
  have equals := recognises_expect .equals Kind.all
  have action := recognises_name [.colon]
  have parameter := recognises_behind (k := .colon)
    (recognises_template (List.not_mem_nil)) (by simp)
  have behindModifiers : LeadsTo (tok .equals
      * (LineGrammar.name [.colon] * opt (tok .colon * LineGrammar.text []))) [] [.equals] :=
    leadsTo_tok_mul (by simp) _ _
  refine event.bind (fun _ => modifiers.bind (fun _ => equals.bind (fun _ => action.bind
    (fun _ => parameter.bind_pure _) ?_) (leadsTo_all _)) behindModifiers) ?_
  · exact leadsTo_opt (by simp) (by simp) _
  · exact behindModifiers.mul (leadsTo_kstar (by simp) (by simp) _)

/-- What a line may go on with, by its first token. -/
theorem cons_mem_content {k : Kind} {w : List Kind} :
    k :: w ∈ LineGrammar.content ↔
      k = .comment ∧ w = []
      ∨ k = .greaterThan ∧ w ∈ LineGrammar.name [.dot, .hashSign]
          * ((tok .dot * LineGrammar.text [.dot, .hashSign])∗
            * opt (tok .hashSign * LineGrammar.name []))
      ∨ k = .hashSign ∧ w ∈ LineGrammar.name [.equals] * opt (tok .equals * LineGrammar.text [])
      ∨ k = .percentSign ∧ w ∈ LineGrammar.name [.equals, .atSign]
          * (opt (tok .atSign * LineGrammar.name [.equals])
            * opt (tok .equals * LineGrammar.text []))
      ∨ k = .atSign ∧ w ∈ LineGrammar.name [.dot, .equals]
          * ((tok .dot * LineGrammar.name [.dot, .equals])∗
            * (tok .equals * (LineGrammar.name [.colon] * opt (tok .colon * LineGrammar.text []))))
      ∨ (k = .dot ∨ k = .bar) ∧ w ∈ LineGrammar.text []
      ∨ (k = .plus ∨ k = .minus) ∧ w ∈ LineGrammar.name [] := by
  simp only [LineGrammar.content, elementLine, attributeLine, propertyLine, handlerLine, textLine,
    mountingPoint, add_mul, Language.mem_add, cons_mem_tok_mul, Language.mem_one, mem_tok,
    List.cons_ne_nil, false_or, List.cons.injEq, or_assoc, or_and_right]

theorem nil_mem_content : [] ∈ LineGrammar.content := by
  simp only [LineGrammar.content, Language.mem_add, Language.mem_one, true_or]

/-- A line is free of findings if its tokens are a word of the grammar, and only then. -/
theorem findings_content {stop : Token} {given : List Token}
    (inner : ∀ t ∈ given, t.kind.endsLine = false)
    (alone : ∀ t ts, given = t :: ts → t.kind = .comment → ts = []) :
    (content stop given).findings = [] ↔ given.map Token.kind ∈ LineGrammar.content := by
  cases given with
  | nil => exact ⟨fun _ => nil_mem_content, fun _ => rfl⟩
  | cons t ts =>
    have inside : ∀ u ∈ ts, u.kind.endsLine = false := fun u hu => inner u (.tail t hu)
    have template := recognises_template (List.not_mem_nil)
    have textRest := (readsUpTo_template [] stop ts).eq_nil
    have nameRest := (readsUpTo_name [] stop ts).eq_nil
    rw [List.map_cons, cons_mem_content, content]
    dsimp only
    split
    · next h =>
      simp only [h, reduceCtorEq, false_and, true_and, false_or, or_false]
      exact (recognises_tagBehind _).iff_mem_of_pure _ (tagBehind_rest _) inside
    · next h =>
      simp only [h, reduceCtorEq, false_and, true_and, false_or, or_false]
      exact (recognises_attributeBehind _).iff_mem_of_pure _ (attributeBehind_rest _) inside
    · next h =>
      simp only [h, reduceCtorEq, false_and, true_and, false_or, or_false]
      exact (recognises_propertyBehind _).iff_mem_of_pure _ (propertyBehind_rest _) inside
    · next h =>
      simp only [h, reduceCtorEq, false_and, true_and, false_or, or_false]
      exact (recognises_handlerBehind _).iff_mem_of_pure _ (handlerBehind_rest _) inside
    · next h =>
      simp only [h, reduceCtorEq, false_and, true_and, false_or, or_false]
      exact template.iff_mem_of_pure _ textRest inside
    · next h =>
      simp only [h, reduceCtorEq, false_and, true_and, false_or, or_false, or_true]
      exact template.iff_mem_of_pure _ textRest inside
    · next h =>
      simp only [h, reduceCtorEq, false_and, true_and, false_or, or_false]
      exact (recognises_name []).iff_mem_of_pure _ nameRest inside
    · next h =>
      simp only [h, reduceCtorEq, false_and, true_and, false_or, or_false, or_true]
      exact (recognises_name []).iff_mem_of_pure _ nameRest inside
    · next h =>
      simp only [h, reduceCtorEq, false_and, true_and, or_false, alone t ts rfl h, List.map_nil]
      exact iff_of_true rfl trivial
    · next kind h1 h2 h3 h4 h5 h6 h7 h8 h9 =>
      -- What opens no line is reported at once, and no form starts with it.
      refine iff_of_false (List.cons_ne_nil _ _) ?_
      rintro (⟨h, -⟩ | ⟨h, -⟩ | ⟨h, -⟩ | ⟨h, -⟩ | ⟨h, -⟩ | ⟨h | h, -⟩ | ⟨h | h, -⟩)
      exacts [h9 h, h1 h, h2 h, h3 h, h4 h, h5 h, h6 h, h7 h, h8 h]

end Reader

/-! ## 7. The tokens on a line -/

/-- The tokens of a text that start on a line, without the one that ends the line. -/
def tokensOn (text : List Char) (k : Nat) : List Token :=
  (tokens text).filter fun t => t.start.line == k && !t.kind.endsLine

theorem TokenLine.front_ofTokens (ts : List Token) (stop : Token) :
    (ofTokens ts stop).front = ts := by
  cases ts with
  | nil => rfl
  | cons t ts => rw [ofTokens]; split <;> rfl

namespace Scanner

/-- The lines are cut behind what ends them, and nothing else is taken out. -/
theorem flatMap_front_split (s : Scanner) (before : List Token) :
    (TokenLine.split before (s.run.map (·.token))).flatMap TokenLine.front
      = before.reverse ++ (s.run.map (·.token)).filter (!·.kind.endsLine) := by
  induction s using run.induct generalizing before with
  | case1 s atEnd =>
    have ends : s.scan.token.kind.endsLine = true := by rw [atEnd]; rfl
    rw [run, if_pos atEnd, List.map_singleton, TokenLine.split, if_neg (by simp [atEnd]),
      if_pos atEnd, List.filter_cons_of_neg (by simp [ends])]
    cases before with
    | nil => rfl
    | cons t before =>
      rw [if_neg (by simp), List.flatMap_singleton, TokenLine.front_ofTokens]
      exact (List.append_nil _).symm
  | case2 s more ih =>
    rw [run, if_neg more, List.map_cons, TokenLine.split]
    split
    · next brk =>
      have ends : s.scan.token.kind.endsLine = true := by rw [brk]; rfl
      rw [List.flatMap_cons, TokenLine.front_ofTokens, ih, List.filter_cons_of_neg (by simp [ends])]
      rfl
    · next brk =>
      have inside : s.scan.token.kind.endsLine = false := by
        revert brk more
        generalize s.scan.token.kind = k
        cases k <;> simp [Kind.endsLine]
      rw [ih, List.filter_cons_of_pos (by simp [inside]), List.reverse_cons, List.append_assoc]
      rfl

end Scanner

/-- The tokens on a line are those of the token line with its number. -/
theorem tokensOn_eq (text : List Char) (k : Nat) :
    tokensOn text k = ((TokenLine.ofText text)[k]?.map TokenLine.front).getD [] := by
  obtain ⟨f, reads, -⟩ := Scanner.reads_ofText text
  have all := Scanner.flatMap_front_split (.start text) []
  have numbered : ∀ k l, (TokenLine.ofText text)[k]? = some l →
      ∀ t ∈ l.front, t.start.line = 0 + k := by
    intro k l at_k t ht
    obtain ⟨q, e, -, line, -, -, number⟩ := reads.line_at at_k
    exact (line.line_of_mem t (List.mem_append_left _ ht)).trans number
  have on := filter_flatMap_of_number numbered (Nat.zero_add k).symm
  rw [TokenLine.ofText, tokens, all, List.reverse_nil, List.nil_append, List.filter_filter] at on
  exact on

/-- The content of a line does not start with an indentation. -/
theorem Scanner.ReadsLine.indentation_notMem {p e : Scanner} {l : TokenLine} (h : p.ReadsLine l e)
    (w : List Kind) : l.body.map Token.kind ≠ .indentation :: w := by
  obtain ⟨k, lx, rest, lexes, past⟩ := h.opens.pastIndent_scan
  cases body : l.body with
  | nil => simp
  | cons t ts =>
    have first := h.body
    rw [body, past] at first
    rw [List.map_cons, ← first.1]
    intro same
    exact lexes.kind_ne_indentation (List.cons.inj same).1

/-- A line may be indented, and does not have to be. -/
theorem Scanner.ReadsLine.mem_line {p e : Scanner} {l : TokenLine} (h : p.ReadsLine l e) :
    l.front.map Token.kind ∈ LineGrammar.line
      ↔ l.body.map Token.kind ∈ LineGrammar.content := by
  rw [LineGrammar.line, opt, one_add_mul, Language.mem_add, TokenLine.front]
  cases indent : l.indent with
  | none =>
    refine or_iff_left ?_
    intro indented
    obtain ⟨_, rfl, w, -, split⟩ := Language.mem_mul.mp indented
    exact h.indentation_notMem w split.symm
  | some t =>
    have kind : t.kind = .indentation := by
      have := h.indent
      rw [indent, Scanner.indent?] at this
      split at this
      · next is => rw [Option.some.inj this]; exact is
      · exact absurd this (by simp)
    rw [Option.toList_some, List.singleton_append, List.map_cons, cons_mem_tok_mul,
      Reader.cons_mem_content, kind]
    simp

/-- A text has no errors if on each of its lines stands what the grammar allows, and only then. -/
theorem accepts_iff_grammar (variant : Variant) (text : List Char) :
    (∀ d ∈ (SourceFile.ofText variant text).diagnostics, d.isError = false)
      ↔ ∀ k < (physicalLines text).length,
          (tokensOn text k).map Token.kind ∈ LineGrammar.line := by
  obtain ⟨f, reads, -⟩ := Scanner.reads_ofText text
  have lines : (physicalLines text).length = (TokenLine.ofText text).length := by
    have := congrArg List.length reads.physicalLines
    rwa [List.length_map] at this
  have each : ∀ k l, (TokenLine.ofText text)[k]? = some l →
      ((Row.ofTokenLine l).frame.findings = []
        ↔ (tokensOn text k).map Token.kind ∈ LineGrammar.line) := by
    intro k l at_k
    obtain ⟨q, e, -, line, -⟩ := reads.line_at at_k
    rw [tokensOn_eq, at_k, Option.map_some, Option.getD_some, line.mem_line, frame_ofTokenLine]
    exact Reader.findings_content line.inner line.opensBody.comment_alone
  rw [isError_diagnostics, lines, Row.ofText, List.forall_mem_map]
  constructor
  · intro free k hk
    exact (each k _ (List.getElem?_eq_getElem hk)).mp (free _ (List.getElem_mem hk))
  · intro words l hl
    obtain ⟨k, at_k⟩ := List.mem_iff_getElem?.mp hl
    exact (each k l at_k).mpr (words k (List.getElem?_eq_some_iff.mp at_k).1)

end OffsideMarkup
