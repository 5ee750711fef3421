/-
OffsideMarkup.Proofs.DocumentReplay — the documents of a server are what the editor told about them.

A server hears many things between two edits of a document: requests, replies of the host, ticks of
the clock, and what is told about other documents. None of this is to touch the document. So the
documents after a run are given twice, by the run and by the notifications alone: `Document.replay`
takes those about one document, in order, and forgets everything else. The same notifications say
what is published (`publications`), since only they publish.

The replay does not use what the server uses. The text that changes leave is made of the text before
them by cutting lists of characters (`Change.edited`), and the document is that text with its lines
and its tree (`Document.ofText`). That the server comes to the same document is `update_eq_ofText`.

A request to shut down ends the replay (`heeded`). Before it there is nothing to wait for: a
notification takes effect in its own step.

* `Server.Replays` — the invariant: documents as the notifications so far leave them.
* `Server.Heeds` — what a step adds to the replay, one lemma for each kind of message.
* `heeds_turns`, `sound_turns` — any turns.
* `documents_replay` — a whole session.
-/
import OffsideMarkup.Proofs.EditedText
import OffsideMarkup.Proofs.Settlement

namespace OffsideMarkup

/-! ## 1. Replay -/

/-- A text that is open in an editor, with its lines and what is read from it. -/
def Document.ofText (uri language : String) (version : Int) (text : List Char) : Document :=
  ⟨uri, language, version, text, .ofText text, .ofText .html text⟩

/-- The text that changes leave, each made on the text that the one before left. -/
def editedText (text : List Char) (changes : List Change) : List Char :=
  changes.foldl (fun text c => c.edited text) text

namespace Notification

/-- The document that a notification is about. -/
def uri? : Notification → Option String
  | .opened uri _ _ _ | .changed uri _ _ | .closed uri => some uri
  | .cancelled _ | .exit => none

/-- The document after a notification about it. -/
def effect (d : Option Document) : Notification → Option Document
  | .opened uri language version text => some (.ofText uri language version text)
  | .changed _ version changes =>
    d.map fun d => .ofText d.uri d.language version (editedText d.text changes)
  | .closed _ => none
  | .cancelled _ | .exit => d

/-- What is published with a notification about a document: what is found in its new text, if it has
one, and nothing for a document that is closed. -/
def publication? (d : Option Document) : Notification → Option ServerMessage
  | .opened uri _ version text =>
    some (.diagnostics uri (some version) (SourceFile.ofText .html text).diagnostics)
  | .changed uri version changes => d.map fun d =>
    .diagnostics uri (some version)
      (SourceFile.ofText .html (editedText d.text changes)).diagnostics
  | .closed uri => some (.diagnostics uri none [])
  | .cancelled _ | .exit => none

end Notification

/-- The document under a URI after some notifications: what those about it make of it, in order. -/
def Document.replay (uri : String) (ns : List Notification) : Option Document :=
  (ns.filter (·.uri? = some uri)).foldl Notification.effect none

/-- What is published with some notifications, which come in behind others. -/
def publications (before : List Notification) : List Notification → List ServerMessage
  | [] => []
  | n :: ns =>
    (n.publication? (n.uri?.bind fun uri => Document.replay uri before)).toList
      ++ publications (before ++ [n]) ns

namespace ClientMessage

/-- The message asks the server to shut down. -/
def isShutdown : ClientMessage → Bool
  | .request _ (.ok .shutdown) => true
  | _ => false

/-- The notification in a message, if it means anything. -/
def notification? : ClientMessage → Option Notification
  | .notification n => n
  | _ => none

end ClientMessage

/-- The notifications that are heeded: those in front of the request to shut down. -/
def heeded : List ClientMessage → List Notification
  | [] => []
  | m :: ms => if m.isShutdown then [] else m.notification?.toList ++ heeded ms

def ServerMessage.isPublication : ServerMessage → Bool
  | .diagnostics _ _ _ => true
  | _ => false

theorem Document.replay_append (uri : String) (ns : List Notification) (n : Notification) :
    replay uri (ns ++ [n])
      = if n.uri? = some uri then n.effect (replay uri ns) else replay uri ns := by
  rw [replay, List.filter_append, List.foldl_append, List.filter_singleton]
  by_cases about : n.uri? = some uri
  · rw [if_pos about, about, decide_eq_true rfl]
    rfl
  · rw [if_neg about, decide_eq_false about]
    rfl

theorem publications_append (before ns ns' : List Notification) :
    publications before (ns ++ ns')
      = publications before ns ++ publications (before ++ ns) ns' := by
  induction ns generalizing before with
  | nil => rw [List.append_nil]; rfl
  | cons n ns ih =>
    rw [List.cons_append, publications, publications, ih, List.append_assoc, List.append_assoc]
    rfl

theorem heeded_append (ms ms' : List ClientMessage) :
    heeded (ms ++ ms')
      = heeded ms ++ if ms.any ClientMessage.isShutdown then [] else heeded ms' := by
  induction ms with
  | nil => rfl
  | cons m ms ih =>
    rw [List.cons_append, heeded, heeded, List.any_cons]
    cases m.isShutdown with
    | true => rfl
    | false =>
      rw [if_neg Bool.false_ne_true, if_neg Bool.false_ne_true, ih, List.append_assoc,
        Bool.false_or]

/-! ## 2. The invariant -/

/-- An update of a document that is up to date gives the text that the changes leave, with its lines
and its tree. -/
theorem Document.UpToDate.update_eq_ofText {d : Document} (h : d.UpToDate) (changes : List Change)
    (version : Int) : d.update changes version
      = .ofText d.uri d.language version (editedText d.text changes) := by
  have variant : d.tree.variant = .html := by rw [h.tree]; rfl
  simp only [Document.update, ofText, editedText, Change.edited_eq_apply, variant]

/-- What is kept of a document is what its text gives. -/
structure Analysis.Sound (a : Analysis) : Prop where
  upToDate : a.document.UpToDate
  folds : ∀ fs ∈ a.folds, fs = (SourceFile.ofText .html a.document.text).folds

theorem Analysis.sound_create {d : Document} (h : d.UpToDate) : (create d).Sound :=
  ⟨h, fun _ none => absurd none (by simp [create])⟩

/-- Folds that are looked up may be kept from then on. Nothing else changes. -/
theorem Analysis.Sound.foldsUnless {a : Analysis} (h : a.Sound) (cancelled : Bool) :
    (a.foldsUnless cancelled).2.Sound ∧ (a.foldsUnless cancelled).2.document = a.document := by
  rw [Analysis.foldsUnless]
  cases known : a.folds with
  | some folds => exact ⟨h, rfl⟩
  | none =>
    cases cancelled with
    | true => exact ⟨h, rfl⟩
    | false =>
      refine ⟨⟨h.upToDate, fun fs kept => ?_⟩, rfl⟩
      obtain rfl : a.tree.folds = fs := by simpa using kept
      exact congrArg SourceFile.folds h.upToDate.tree

namespace Server

variable {s : Server} {ns : List Notification} {after : Server × List ServerMessage}

/-- The documents of a server are those that some notifications leave. -/
structure Replays (s : Server) (ns : List Notification) : Prop where
  documents : ∀ uri, (s.documents.get? uri).map Analysis.document = Document.replay uri ns
  sound : ∀ uri, ∀ a ∈ s.documents.get? uri, a.Sound

/-- A step in which these messages have been handled takes their notifications into the replay, and
publishes what they say. -/
structure Heeds (s : Server) (ms : List ClientMessage) (after : Server × List ServerMessage) :
    Prop where
  isShuttingDown : after.1.isShuttingDown
    = (s.isShuttingDown || ms.any ClientMessage.isShutdown)
  replays : ∀ before, s.Replays before →
    after.1.Replays (before ++ if s.isShuttingDown then [] else heeded ms)
  published : ∀ before, s.Replays before → after.2.filter ServerMessage.isPublication
    = publications before (if s.isShuttingDown then [] else heeded ms)

/-- One step after another. -/
theorem Heeds.andThen {first second : Server × List ServerMessage} {ms ms' : List ClientMessage}
    (h : Heeds s ms first) (h' : Heeds first.1 ms' second) :
    Heeds s (ms ++ ms') (second.1, first.2 ++ second.2) := by
  have both : (if s.isShuttingDown then [] else heeded (ms ++ ms'))
      = (if s.isShuttingDown then [] else heeded ms)
        ++ if first.1.isShuttingDown then [] else heeded ms' := by
    rw [h.isShuttingDown, heeded_append]
    cases s.isShuttingDown <;> rfl
  refine ⟨?_, fun before here => ?_, fun before here => ?_⟩
  · rw [h'.isShuttingDown, h.isShuttingDown, List.any_append, Bool.or_assoc]
  · rw [both, ← List.append_assoc]
    exact h'.replays _ (h.replays before here)
  · rw [both, publications_append, List.filter_append, h.published before here,
      h'.published _ (h.replays before here)]

/-- A step that leaves documents alone and publishes nothing. -/
structure Quiet (s : Server) (after : Server × List ServerMessage) : Prop where
  isShuttingDown : after.1.isShuttingDown = s.isShuttingDown
  replays : ∀ ns, s.Replays ns → after.1.Replays ns
  silent : after.2.filter ServerMessage.isPublication = []

theorem Quiet.andThen {first second : Server × List ServerMessage} (h : Quiet s first)
    (h' : Quiet first.1 second) : Quiet s (second.1, first.2 ++ second.2) := by
  refine ⟨h'.isShuttingDown.trans h.isShuttingDown,
    fun ns here => h'.replays ns (h.replays ns here), ?_⟩
  rw [List.filter_append, h.silent, h'.silent, List.append_nil]

theorem quiet_same (s : Server) : Quiet s (s, []) := ⟨rfl, fun _ here => here, rfl⟩

theorem quiet_of_documents (documents : after.1.documents = s.documents)
    (isShuttingDown : after.1.isShuttingDown = s.isShuttingDown)
    (silent : after.2.filter ServerMessage.isPublication = []) : Quiet s after := by
  refine ⟨isShuttingDown, fun ns here => ⟨?_, ?_⟩, silent⟩
  · rw [documents]
    exact here.documents
  · rw [documents]
    exact here.sound

/-- A quiet step heeds messages that hold no notification and no request to shut down. -/
theorem Quiet.heeds {ms : List ClientMessage} (h : Quiet s after)
    (stays : ms.any ClientMessage.isShutdown = false) (nothing : heeded ms = []) :
    Heeds s ms after := by
  have none : (if s.isShuttingDown then [] else heeded ms) = [] := by rw [nothing, ite_self]
  refine ⟨?_, fun before here => ?_, fun before _ => ?_⟩
  · rw [stays, Bool.or_false]
    exact h.isShuttingDown
  · rw [none, List.append_nil]
    exact h.replays before here
  · rw [none]
    exact h.silent

/-! ## 3. The host and the clock -/

theorem quiet_settle (s : Server) (now : Nat) (f : Forward) (result : Option Json) :
    Quiet s (s.settle now f result) := by
  rw [settle]
  split <;> exact quiet_of_documents rfl rfl rfl

theorem quiet_forget_settle (s : Server) (now : Nat) (f : Forward) (result : Option Json) :
    Quiet s ((s.forget f).settle now f result) := by
  have first : Quiet s (s.forget f, []) := quiet_of_documents rfl rfl rfl
  exact first.andThen (quiet_settle (s.forget f) now f result)

theorem quiet_resume (s : Server) (now : Nat) (id : RequestId) (reply : HostReply) :
    Quiet s (s.resume now id reply) := by
  rw [resume]
  split
  · exact quiet_forget_settle s now _ _
  · exact quiet_same s

theorem quiet_settleAll (s : Server) (now : Nat) (fs : List Forward) :
    Quiet s (s.settleAll now fs) := by
  induction fs generalizing s with
  | nil => exact quiet_same s
  | cons f fs ih => exact (quiet_forget_settle s now f none).andThen (ih _)

theorem quiet_cancel (s : Server) (id : RequestId) : Quiet s (s.cancel id) := by
  rw [cancel]
  split
  · exact quiet_of_documents rfl rfl rfl
  · exact quiet_same s

/-! ## 4. Requests -/

theorem isPublication_reply (id : RequestId) (outcome : Except Fault Answer) :
    [reply id outcome].filter ServerMessage.isPublication = [] := by
  cases outcome <;> rfl

theorem quiet_reply (s : Server) (id : RequestId) (outcome : Except Fault Answer) :
    Quiet s (s, [reply id outcome]) :=
  quiet_of_documents rfl rfl (isPublication_reply id outcome)

theorem quiet_withDocument {id : RequestId} {uri : String}
    {next : Analysis → Server × List ServerMessage}
    (h : ∀ a, s.documents.get? uri = some a → Quiet s (next a)) :
    Quiet s (s.withDocument id uri next) := by
  rw [withDocument]
  split
  · next a found => exact h a found
  · exact quiet_reply s id _

/-- A document in place of one with the same text, version, lines and tree. -/
theorem Replays.insert (h : s.Replays ns) {uri : String} {a b : Analysis}
    (found : s.documents.get? uri = some a) (sound : b.Sound) (same : b.document = a.document) :
    Replays { s with documents := s.documents.insert uri b } ns := by
  refine ⟨fun other => ?_, fun other => ?_⟩
  · rw [← h.documents other]
    by_cases here : other = uri
    · subst here
      rw [Table.get?_insert_self, found, Option.map_some, Option.map_some, same]
    · rw [Table.get?_insert_of_ne _ _ here]
  · by_cases here : other = uri
    · subst here
      rw [Table.get?_insert_self]
      rintro c ⟨⟩
      exact sound
    · rw [Table.get?_insert_of_ne _ _ here]
      exact h.sound other

theorem quiet_folds {id : RequestId} {uri : String} {a : Analysis} (cancelled : Bool)
    (found : s.documents.get? uri = some a) :
    Quiet s ({ s with documents := s.documents.insert uri (a.foldsUnless cancelled).2 },
      [reply id ((a.foldsUnless cancelled).1.map .folds)]) := by
  refine ⟨rfl, fun ns here => ?_, isPublication_reply id _⟩
  obtain ⟨sound, same⟩ := (here.sound uri a found).foldsUnless cancelled
  exact here.insert found sound same

theorem quiet_complete (s : Server) (now : Nat) (id : RequestId) (a : Analysis) (p : Position) :
    Quiet s (s.complete now id a p) := by
  rw [complete]
  split
  · exact quiet_of_documents rfl rfl rfl
  · split <;> exact quiet_of_documents rfl rfl rfl

theorem quiet_explain (s : Server) (now : Nat) (id : RequestId) (a : Analysis) (p : Position) :
    Quiet s (s.explain now id a p) := by
  rw [explain]
  split <;> exact quiet_of_documents rfl rfl rfl

/-- A request changes no document. -/
theorem heeds_serve (s : Server) (now : Nat) (cancelled : Bool) (id : RequestId)
    (request : Request) :
    Heeds s [.request id (.ok request)] (s.serve now cancelled id request) := by
  cases request with
  | shutdown =>
    have none : (if s.isShuttingDown then [] else heeded [.request id (.ok .shutdown)]) = [] :=
      ite_self _
    refine ⟨(Bool.or_true _).symm, fun before here => ?_, fun before _ => ?_⟩
    · rw [none, List.append_nil]
      exact ⟨here.documents, here.sound⟩
    · rw [none]
      rfl
  | folds uri => exact (quiet_withDocument fun a => quiet_folds cancelled).heeds rfl rfl
  | symbols uri => exact (quiet_withDocument fun a _ => quiet_reply s id _).heeds rfl rfl
  | highlights uri => exact (quiet_withDocument fun a _ => quiet_reply s id _).heeds rfl rfl
  | completion uri p =>
    exact (quiet_withDocument fun a _ => quiet_complete s now id a p).heeds rfl rfl
  | hover uri p => exact (quiet_withDocument fun a _ => quiet_explain s now id a p).heeds rfl rfl
  | keyHints uri =>
    have shown (a : Analysis) : Quiet s (s, [.answer id (.keyHints a.tree.keyHints)]) :=
      quiet_of_documents rfl rfl rfl
    exact (quiet_withDocument fun a _ => shown a).heeds rfl rfl

theorem heeds_answer (s : Server) (now : Nat) (cancelled : Bool) (id : RequestId)
    (body : Except Refusal Request) :
    Heeds s [.request id body] (s.answer now cancelled id body) := by
  simp only [answer]
  split
  · next shuttingDown =>
    have refused : Quiet s (s, [.refusal id .shuttingDown]) := quiet_of_documents rfl rfl rfl
    refine ⟨by rw [shuttingDown, Bool.true_or], fun before here => ?_, fun before _ => ?_⟩
    · rw [if_pos shuttingDown, List.append_nil]
      exact here
    · rw [if_pos shuttingDown]
      exact refused.silent
  · cases body with
    | error r =>
      have refused : Quiet s (s, [.refusal id r]) := quiet_of_documents rfl rfl rfl
      exact refused.heeds rfl rfl
    | ok request => exact heeds_serve s now cancelled id request

/-! ## 5. Notifications -/

/-- A notification about a document, which decides what is under its URI afterwards. -/
theorem heeds_effect {n : Notification} {uri : String} (about : n.uri? = some uri)
    (going : s.isShuttingDown = false) (still : after.1.isShuttingDown = false)
    (others : ∀ other, other ≠ uri → after.1.documents.get? other = s.documents.get? other)
    (own : ∀ before, s.Replays before → (after.1.documents.get? uri).map Analysis.document
      = n.effect (Document.replay uri before))
    (sound : ∀ before, s.Replays before → ∀ a ∈ after.1.documents.get? uri, a.Sound)
    (published : ∀ before, s.Replays before → after.2.filter ServerMessage.isPublication
      = (n.publication? (Document.replay uri before)).toList) :
    Heeds s [.notification (some n)] after := by
  have taken : (if s.isShuttingDown then [] else heeded [.notification (some n)]) = [n] := by
    rw [going]
    rfl
  refine ⟨?_, fun before here => ⟨fun other => ?_, fun other => ?_⟩, fun before here => ?_⟩
  · rw [still, going]
    rfl
  · rw [taken, Document.replay_append, about]
    by_cases same : other = uri
    · subst same
      rw [if_pos rfl]
      exact own before here
    · rw [others other same, if_neg (by simpa using Ne.symm same)]
      exact here.documents other
  · by_cases same : other = uri
    · subst same
      exact sound before here
    · rw [others other same]
      exact here.sound other
  · rw [taken, publications, about, publications, List.append_nil]
    exact published before here

/-- A document is kept, the one that the notification leaves. -/
theorem heeds_keep {n : Notification} {uri : String} (about : n.uri? = some uri)
    (going : s.isShuttingDown = false) {a : Analysis}
    (left : ∀ before, s.Replays before → a.Sound
      ∧ n.effect (Document.replay uri before) = some a.document
      ∧ n.publication? (Document.replay uri before)
        = some (.diagnostics uri (some a.document.version) a.tree.diagnostics)) :
    Heeds s [.notification (some n)] (s.keep uri a) := by
  have here : (s.keep uri a).1.documents.get? uri = some a := Table.get?_insert_self _ uri a
  refine heeds_effect about going going (fun other other_ne => ?_) (fun before replays => ?_)
    (fun before replays => ?_) (fun before replays => ?_)
  · exact Table.get?_insert_of_ne _ _ other_ne
  · rw [here, (left before replays).2.1]
    rfl
  · rw [here]
    rintro b ⟨⟩
    exact (left before replays).1
  · rw [(left before replays).2.2]
    rfl

/-- A notification about no document, which changes none and publishes nothing. -/
theorem Quiet.heeds_aside (h : Quiet s after) {n : Notification} (going : s.isShuttingDown = false)
    (aside : n.uri? = none) (unpublished : n.publication? none = none) :
    Heeds s [.notification (some n)] after := by
  have taken : (if s.isShuttingDown then [] else heeded [.notification (some n)]) = [n] := by
    rw [going]
    rfl
  refine ⟨?_, fun before here => ?_, fun before here => ?_⟩
  · rw [h.isShuttingDown, going]
    rfl
  · obtain ⟨documents, sound⟩ := h.replays before here
    refine ⟨fun uri => ?_, sound⟩
    rw [documents, taken, Document.replay_append, aside, if_neg (by simp)]
  · rw [taken, publications, aside, Option.bind_none, unpublished]
    exact h.silent

theorem heeds_changed (going : s.isShuttingDown = false) (uri : String) (version : Int)
    (changes : List Change) :
    Heeds s [.notification (some (.changed uri version changes))]
      (s.notice (.changed uri version changes)) := by
  rw [notice]
  cases found : s.documents.get? uri with
  | some a =>
    refine heeds_keep rfl going fun before here => ?_
    have replay : Document.replay uri before = some a.document := by
      rw [← here.documents uri, found]
      rfl
    have old : a.document.UpToDate := (here.sound uri a found).upToDate
    have edits : (a.update changes version).document = .ofText _ _ version _ :=
      old.update_eq_ofText changes version
    refine ⟨Analysis.sound_create (old.update changes version), ?_, ?_⟩
    · rw [replay]
      exact congrArg some edits.symm
    · rw [replay, Analysis.tree, edits]
      rfl
  | none =>
    have replay {before} (here : s.Replays before) : Document.replay uri before = none := by
      rw [← here.documents uri, found]
      rfl
    refine heeds_effect rfl going going (fun _ _ => rfl) (fun _ here => ?_)
      (fun _ here => here.sound uri) (fun _ here => ?_)
    · rw [replay here, found]
      rfl
    · rw [replay here]
      rfl

theorem heeds_closed (going : s.isShuttingDown = false) (uri : String) :
    Heeds s [.notification (some (.closed uri))] (s.notice (.closed uri)) := by
  have gone : (s.notice (.closed uri)).1.documents.get? uri = none := Table.get?_erase_self _ uri
  refine heeds_effect rfl going going (fun other other_ne => ?_) (fun _ _ => ?_) (fun _ _ => ?_)
    (fun _ _ => rfl)
  · exact Table.get?_erase_of_ne _ other_ne
  · rw [gone]
    rfl
  · rw [gone]
    exact fun a none => absurd none (by simp)

theorem heeds_notice (going : s.isShuttingDown = false) (n : Notification) :
    Heeds s [.notification (some n)] (s.notice n) := by
  cases n with
  | opened uri language version text =>
    have upToDate := Document.upToDate_create uri language version text
    exact heeds_keep rfl going fun _ _ => ⟨Analysis.sound_create upToDate, rfl, rfl⟩
  | changed uri version changes => exact heeds_changed going uri version changes
  | closed uri => exact heeds_closed going uri
  | cancelled id => exact (quiet_cancel s id).heeds_aside going rfl rfl
  | exit => exact (quiet_same s).heeds_aside going rfl rfl

/-- One message of the editor, whatever stands behind it. -/
theorem heeds_handle (s : Server) (now : Nat) (later : List ClientMessage) (m : ClientMessage) :
    Heeds s [m] (s.handle now later m) := by
  cases m with
  | request id body => exact heeds_answer s now _ id body
  | response id reply => exact (quiet_resume s now id reply).heeds rfl rfl
  | notification n =>
    cases n with
    | none => exact (quiet_same s).heeds rfl rfl
    | some n =>
      rw [handle]
      split
      · next shuttingDown =>
        refine ⟨by rw [shuttingDown, Bool.true_or], fun before here => ?_, fun before _ => ?_⟩
        · rw [if_pos shuttingDown, List.append_nil]
          exact here
        · rw [if_pos shuttingDown]
          rfl
      · next going => exact heeds_notice (by simpa using going) n

/-! ## 6. Turns and sessions -/

theorem heeds_nil (s : Server) : Heeds s [] (s, []) := (quiet_same s).heeds rfl rfl

theorem quiet_reorder (s : Server) (pending : List Forward) :
    Quiet s (s.reorder pending, []) := by
  obtain ⟨fs, -, same⟩ := s.reorder_eq pending
  rw [same]
  exact quiet_of_documents rfl rfl rfl

/-- Over turns, documents are those that the notifications leave. -/
theorem heeds_turns (s : Server) (ts : List Turn) :
    Heeds s (ts.flatMap Turn.messages) (s.turns ts) :=
  turns_account (P := fun s ts after => Heeds s (ts.flatMap Turn.messages) after) heeds_nil
    (fun h h' => by
      rw [List.flatMap_append]
      exact h.andThen h')
    (fun s t => by
      rw [List.flatMap_singleton]
      cases t with
      | message now waiting m => exact heeds_handle s now waiting m
      | tick now => exact (quiet_settleAll s now _).heeds rfl rfl
      | reorder pending => exact (quiet_reorder s pending).heeds rfl rfl) s ts

theorem replays_create (config : Config) : (create config).Replays [] :=
  ⟨fun _ => rfl, fun uri a found => absurd found (by simp [create, Table.get?_empty])⟩

/-- What is kept of a document after any turns is what its text gives. -/
theorem sound_turns (config : Config) (ts : List Turn) {uri : String} {a : Analysis}
    (found : ((create config).turns ts).1.documents.get? uri = some a) : a.Sound :=
  ((heeds_turns (create config) ts).replays [] (replays_create config)).sound uri a found

end Server

/-- Over any session: under each URI stands the document that the notifications about it leave,
those handled in front of a request to shut down, with the lines, the tree and the folds of its text
and nothing else. What is published is what these notifications say, each in its turn: with what is
open at the time, an opening and a change publish once, the new version and what is found in the new
text, and a closing publishes once that there is nothing. -/
theorem documents_replay (config : Config) (events : List Event) :
    (∀ uri, (((Session.create config).run events).1.server.documents.get? uri).map
          Analysis.document
        = Document.replay uri (heeded (handledMessages events)))
      ∧ (∀ uri a, ((Session.create config).run events).1.server.documents.get? uri = some a →
        a.document.lines = .ofText a.document.text
          ∧ a.document.tree = .ofText .html a.document.text
          ∧ (a.folds = none ∨ a.folds = some (SourceFile.ofText .html a.document.text).folds))
      ∧ ((Session.create config).run events).2.filter ServerMessage.isPublication
        = publications [] (heeded (handledMessages events)) := by
  have heeds := Server.heeds_turns (Server.create config) (Turn.ofEvents events)
  rw [Session.turns_ofEvents, Turn.messages_ofEvents] at heeds
  have replays := heeds.replays [] (Server.replays_create config)
  have published := heeds.published [] (Server.replays_create config)
  refine ⟨replays.documents, fun uri a found => ?_, published⟩
  have sound := replays.sound uri a found
  refine ⟨sound.upToDate.lines, sound.upToDate.tree, ?_⟩
  cases known : a.folds with
  | none => exact .inl rfl
  | some fs => exact .inr (congrArg some (sound.folds fs known))

end OffsideMarkup
