/-
OffsideMarkup.Proofs.Cancellation — what becomes of a request that the editor takes back.

A request can be taken back in two ways. A message that does so may wait behind the request when it
is handled; then what is asked need not be worked out. Or it comes when the request waits for the
host; then the question is withdrawn. A message that comes too early or too late, or names a request
that was never made, does nothing.

What is asked about a whole document is worked out in a walk over the tree, and the walk is where it
is noticed that nobody wants the result. The walk for folds looks at the root, unless the folds are
known. The walks for symbols and highlights look only at lines, so they do not notice it in a
document that has none: there the request is answered, with nothing (`answers_without_lines`). The
lines of a document are none exactly if its text is empty (`lines_eq_nil`).

* `Numbered.handle_cancelled` — a request that waits for the host is refused and its question
  withdrawn.
* `unsettled_of_nodup` — it is never settled again, if no other has its identifier.
* `cancellation` — all of it, after any turns.
-/
import OffsideMarkup.Proofs.BestEffort
import OffsideMarkup.Proofs.DocumentReplay
import OffsideMarkup.Proofs.Lossless

namespace OffsideMarkup

/-! ## 1. Requests that are taken back before they are handled -/

/-- The message that takes a request back. -/
def ClientMessage.takingBack (id : RequestId) : ClientMessage :=
  .notification (some (.cancelled id))

/-- The messages in reply to a request: refused as cancelled under a condition, else answered, in
full. -/
structure RefusedIf (p : Prop) (id : RequestId) (full : Answer) (sent : List ServerMessage) :
    Prop where
  refused : p → sent = [.refusal id (.fault .requestCancelled)]
  answered : ¬ p → sent = [.answer id full]

/-- A file has no lines exactly if it is read from nothing. -/
theorem lines_eq_nil {variant : Variant} {text : List Char} :
    (SourceFile.ofText variant text).lines = [] ↔ text = [] := by
  constructor
  · intro empty
    rw [← source_root variant text, SourceFile.root, empty]
    rfl
  · rintro rfl
    have rows : Row.ofText [] = [] := by decide +kernel
    rw [SourceFile.ofText, rows, Line.nest]

namespace Server

variable {s : Server} {a : Analysis} {uri : String}

theorem isTakenBack_iff {id : RequestId} {messages : List ClientMessage} :
    isTakenBack id messages = true ↔ .takingBack id ∈ messages := by
  rw [isTakenBack, List.any_eq_true]
  constructor
  · rintro ⟨m, hm, names⟩
    split at names
    · obtain rfl := of_decide_eq_true names
      exact hm
    · exact absurd names Bool.false_ne_true
  · exact fun hm => ⟨_, hm, decide_eq_true rfl⟩

/-- A request about an open document is served. -/
theorem handle_of_open (going : s.isShuttingDown = false) (now : Nat)
    (waiting : List ClientMessage) (id : RequestId) (request : Request) :
    s.handle now waiting (.request id (.ok request))
      = s.serve now (isTakenBack id waiting) id request := by
  rw [handle]
  simp only [answer, going, Bool.false_eq_true, if_false]

theorem withDocument_of_open (found : s.documents.get? uri = some a) (id : RequestId)
    (next : Analysis → Server × List ServerMessage) : s.withDocument id uri next = next a := by
  rw [withDocument, found]

/-- What is worked out line by line is refused if the request is taken back and there are lines. -/
theorem refusedIf_lineByLine {α : Type} (sound : a.Sound) (waiting : List ClientMessage)
    (id : RequestId) (answer : SourceFile → α) (toAnswer : α → Answer) :
    RefusedIf (.takingBack id ∈ waiting ∧ a.document.text ≠ []) id
      (toAnswer (answer (.ofText .html a.document.text)))
      [reply id ((a.lineByLine (isTakenBack id waiting) answer).map toAnswer)] := by
  have tree : a.tree = .ofText .html a.document.text := sound.upToDate.tree
  have lines : a.tree.lines.isEmpty = true ↔ a.document.text = [] := by
    rw [tree, List.isEmpty_iff, lines_eq_nil]
  refine ⟨fun ⟨taken, filled⟩ => ?_, fun wanted => ?_⟩
  · have stopped : (isTakenBack id waiting && !a.tree.lines.isEmpty) = true := by
      rw [isTakenBack_iff.mpr taken, Bool.true_and, Bool.not_eq_true', ← Bool.not_eq_true, lines]
      exact filled
    rw [Analysis.lineByLine, if_pos stopped]
    rfl
  · have through : ¬ (isTakenBack id waiting && !a.tree.lines.isEmpty) = true := by
      rwa [Bool.and_eq_true, Bool.not_eq_true', isTakenBack_iff, ← Bool.not_eq_true, lines]
    rw [Analysis.lineByLine, if_neg through, tree]
    rfl

/-- Folds are refused if the request is taken back and they are not known yet. -/
theorem refusedIf_folds (sound : a.Sound) (waiting : List ClientMessage) (id : RequestId) :
    RefusedIf (.takingBack id ∈ waiting ∧ a.folds = none) id
      (.folds (SourceFile.ofText .html a.document.text).folds)
      [reply id ((a.foldsUnless (isTakenBack id waiting)).1.map .folds)] := by
  have tree : a.tree = .ofText .html a.document.text := sound.upToDate.tree
  refine ⟨fun ⟨taken, unknown⟩ => ?_, fun wanted => ?_⟩
  · rw [Analysis.foldsUnless, unknown, isTakenBack_iff.mpr taken]
    rfl
  · rw [Analysis.foldsUnless]
    cases known : a.folds with
    | some folds =>
      rw [sound.folds folds known]
      rfl
    | none =>
      have through : isTakenBack id waiting = false := by
        rw [← Bool.not_eq_true, isTakenBack_iff]
        exact fun taken => wanted ⟨taken, known⟩
      rw [through, tree]
      rfl

/-! ## 2. Requests that wait for the host -/

/-- Over the turns of a session, as many questions are open for a request as were made with its
identifier, at most. -/
theorem waiting_le_count (config : Config) (history : List Turn) (id : RequestId) :
    waiting id ((create config).turns history).1
      ≤ (history.flatMap Turn.requests).count id := by
  have account := (balanced_turns (numbered_create config) history).balance
    (numbered_create config) id
  have start : waiting id (create config) = 0 := rfl
  omega

/-- If only one question is open for a request, taking the request back withdraws it. -/
theorem Numbered.handle_cancelled (n : s.Numbered) {f : Forward} (hf : f ∈ s.pending)
    (once : waiting f.origin s ≤ 1) (going : s.isShuttingDown = false) (now : Nat)
    (later : List ClientMessage) :
    s.handle now later (.takingBack f.origin)
      = (s.forget f, [.withdrawal f.number, .refusal f.origin (.fault .requestCancelled)]) := by
  have alone : ∀ g ∈ s.pending, g.origin = f.origin → g = f := by
    intro g hg same
    by_contra other
    have left : g ∈ (s.forget f).pending := by
      refine List.mem_filter.mpr ⟨hg, bne_iff_ne.mpr fun number => other ?_⟩
      exact List.inj_on_of_nodup_map n.distinct hg hf number
    have counted : 0 < waiting f.origin (s.forget f) :=
      List.countP_pos_iff.mpr ⟨g, left, decide_eq_true same⟩
    have whole := waiting_forget n hf f.origin
    rw [List.count_singleton_self] at whole
    omega
  have found : s.pending.find? (·.origin = f.origin) = some f := by
    cases first : s.pending.find? (·.origin = f.origin) with
    | none => exact absurd (List.find?_eq_none.mp first f hf) (by simp)
    | some g =>
      rw [alone g (List.mem_of_find?_eq_some first) (by simpa using List.find?_some first)]
  rw [ClientMessage.takingBack, handle, if_neg (by simp [going]), notice, cancel, found]

/-- A request that no question is open for is not settled by turns in which it is not made. -/
theorem unsettled_turns (n : s.Numbered) {id : RequestId} (none : waiting id s = 0)
    {later : List Turn} (absent : id ∉ later.flatMap Turn.requests) :
    ∀ m ∈ (s.turns later).2, m.settles? ≠ some id := by
  have account := (balanced_turns n later).balance n id
  rw [none, List.count_eq_zero.mpr absent] at account
  intro m hm settles
  have counted : 0 < settled id (s.turns later).2 :=
    List.count_pos_iff.mpr (List.mem_filterMap.mpr ⟨m, hm, settles⟩)
  omega

end Server

/-! ## 3. Notifications that take nothing back -/

/-- A notification to take a request back does that, or it means nothing. -/
theorem Notification.read?_cancelRequest (params : Json) :
    read? "$/cancelRequest" params = none
      ∨ ∃ id, read? "$/cancelRequest" params = some (.cancelled id) := by
  have understood : read? "$/cancelRequest" params
      = (((cancelledShape.read? params).bind (·.get? "id")).bind RequestId.ofJson?).map
        cancelled := by
    have method : methods.lookup "$/cancelRequest" = some _ := rfl
    rw [read?, method, Option.bind_some, Option.map_eq_bind, Option.bind_assoc, Option.bind_assoc]
    rfl
  rw [understood]
  cases ((cancelledShape.read? params).bind (·.get? "id")).bind RequestId.ofJson? with
  | none => exact .inl rfl
  | some id => exact .inr ⟨id, rfl⟩

/-- What takes back none of the requests that wait for the host changes nothing. -/
theorem Server.handle_cancelRequest {s : Server} {params : Json}
    (aside : s.isShuttingDown = false → ∀ f ∈ s.pending,
      Notification.read? "$/cancelRequest" params ≠ some (.cancelled f.origin))
    (now : Nat) (waiting : List ClientMessage) :
    s.handle now waiting (.notification (Notification.read? "$/cancelRequest" params))
      = (s, []) := by
  rcases Notification.read?_cancelRequest params with nothing | ⟨id, means⟩
  · rw [nothing, handle]
  · rw [means] at aside ⊢
    rw [handle]
    cases going : s.isShuttingDown with
    | true => rfl
    | false =>
      have none : s.pending.find? (·.origin = id) = none :=
        List.find?_eq_none.mpr fun f hf => by
          simpa [eq_comm] using aside going f hf
      rw [if_neg Bool.false_ne_true, notice, cancel, none]

/-! ## 4. After any turns -/

/-- After any turns of a session in which no two requests have one identifier, and before it shuts
down: a request about an open document is answered in full, unless a message that takes it back
waits behind it. Then it is refused as cancelled, except where there is nothing to walk: folds that
are known, and symbols and highlights of an empty text. Taking back a request that waits for the
host withdraws its question and refuses it; however the session goes on, the request is not settled
again, nothing with the number of the question is open, so that no tick can settle it, and a
response with that number is passed over. At any time, a notification to take a request back that
names none of those that wait changes nothing and sends nothing. -/
theorem cancellation (config : Config) (history later : List Turn)
    (distinct : ((history ++ later).flatMap Turn.requests).Nodup) :
    let s := ((Server.create config).turns history).1
    (s.isShuttingDown = false → ∀ uri a, s.documents.get? uri = some a → ∀ now waiting id,
        let tree := SourceFile.ofText .html a.document.text
        RefusedIf (.takingBack id ∈ waiting ∧ a.folds = none) id (.folds tree.folds)
            (s.handle now waiting (.request id (.ok (.folds uri)))).2
          ∧ RefusedIf (.takingBack id ∈ waiting ∧ a.document.text ≠ []) id (.symbols tree.symbols)
            (s.handle now waiting (.request id (.ok (.symbols uri)))).2
          ∧ RefusedIf (.takingBack id ∈ waiting ∧ a.document.text ≠ []) id
            (.highlights (Highlight.relative tree.highlights))
            (s.handle now waiting (.request id (.ok (.highlights uri)))).2)
      ∧ (s.isShuttingDown = false → ∀ f ∈ s.pending,
          let withdrawn := (s.forget f).turns later
          (∀ now waiting, s.handle now waiting (.takingBack f.origin)
              = (s.forget f,
                [.withdrawal f.number, .refusal f.origin (.fault .requestCancelled)]))
            ∧ (∀ m ∈ withdrawn.2, m.settles? ≠ some f.origin)
            ∧ (∀ g ∈ withdrawn.1.pending, g.number ≠ f.number)
            ∧ (∀ now waiting reply,
              withdrawn.1.handle now waiting (.response (.number f.number) reply)
                = (withdrawn.1, [])))
      ∧ (∀ params, (s.isShuttingDown = false → ∀ f ∈ s.pending,
            Notification.read? "$/cancelRequest" params ≠ some (.cancelled f.origin)) →
          ∀ now waiting,
            s.handle now waiting (.notification (Notification.read? "$/cancelRequest" params))
              = (s, [])) := by
  intro s
  have n : s.Numbered := Server.numbered_turns config history
  rw [List.flatMap_append, List.nodup_append] at distinct
  obtain ⟨once, -, apart⟩ := distinct
  refine ⟨fun going uri a found now waiting id => ?_, fun going f hf => ?_,
    fun params aside => Server.handle_cancelRequest aside⟩
  · have sound := Server.sound_turns config history found
    refine ⟨?_, ?_, ?_⟩ <;>
      rw [Server.handle_of_open going, Server.serve, Server.withDocument_of_open found]
    · exact Server.refusedIf_folds sound waiting id
    · exact Server.refusedIf_lineByLine sound waiting id SourceFile.symbols .symbols
    · exact Server.refusedIf_lineByLine sound waiting id
        (fun tree => Highlight.relative tree.highlights) .highlights
  · intro withdrawn
    have made : Server.waiting f.origin s ≤ (history.flatMap Turn.requests).count f.origin :=
      Server.waiting_le_count config history f.origin
    have whole := Server.waiting_forget n hf f.origin
    rw [List.count_singleton_self] at whole
    have atMostOne := List.nodup_iff_count_le_one.mp once f.origin
    have mem : f.origin ∈ history.flatMap Turn.requests := List.count_pos_iff.mp (by omega)
    have gone : ∀ g ∈ withdrawn.1.pending, g.number ≠ f.number := by
      refine Server.settled_forever (s := s.forget f) (n.asked f hf) (fun g hg => ?_) later
      exact bne_iff_ne.mp (List.mem_filter.mp hg).2
    refine ⟨fun now waiting => n.handle_cancelled hf (by omega) going now waiting, ?_, gone,
      fun now waiting reply => Server.handle_response_of_settled (fun g hg same => ?_) now waiting
        reply⟩
    · exact Server.unsettled_turns (n.forget f) (by omega) fun there =>
        apart f.origin mem f.origin there rfl
    · exact gone g hg (Int.ofNat_inj.mp (RequestId.number.inj same).symm)

/-- A request to complete waits for the host, and is taken back. The host's time is up, and it
replies after all. -/
theorem cancellation_of_completion :
    let s := ((Server.create .standard).turns
      [.message 0 [] (.notification (some (.opened "a" "b" 1 ['>']))),
        .message 1 [] (.request (.number 1) (.ok (.completion "a" ⟨0, 1⟩)))]).1
    ∃ f ∈ s.pending,
      s.handle 2 [] (.takingBack (.number 1))
          = (s.forget f, [.withdrawal f.number, .refusal (.number 1) (.fault .requestCancelled)])
        ∧ ∀ reply, ((s.forget f).turns [.tick 5000]).1.handle 5001 []
            (.response (.number f.number) reply) = (((s.forget f).turns [.tick 5000]).1, []) := by
  intro s
  have going : s.isShuttingDown = false := by decide +kernel
  have origins : s.pending.map Forward.origin = [.number 1] := by decide +kernel
  obtain ⟨f, hf, origin⟩ : ∃ f ∈ s.pending, f.origin = .number 1 := by
    rw [← List.mem_map, origins]
    exact List.mem_singleton_self _
  have cancels := (cancellation .standard _ [.tick 5000] (by decide)).2.1 going f hf
  rw [origin] at cancels
  exact ⟨f, hf, cancels.1 2 [], cancels.2.2.2 5001 []⟩

/-- In a document without lines, what has been taken back is answered, except for folds. -/
theorem answered_without_lines :
    let s := ((Server.create .standard).turns
      [.message 0 [] (.notification (some (.opened "a" "b" 1 [])))]).1
    let waiting := [ClientMessage.takingBack (.number 1)]
    s.isShuttingDown = false ∧ (s.documents.get? "a").isSome
      ∧ (s.handle 0 waiting (.request (.number 1) (.ok (.folds "a")))).2
        = [.refusal (.number 1) (.fault .requestCancelled)]
      ∧ (s.handle 0 waiting (.request (.number 1) (.ok (.symbols "a")))).2
        = [.answer (.number 1) (.symbols [])]
      ∧ (s.handle 0 waiting (.request (.number 1) (.ok (.highlights "a")))).2
        = [.answer (.number 1) (.highlights [])] := by
  intro s waiting
  have going : s.isShuttingDown = false := rfl
  have found : s.documents.get? "a" = some (.create (.create "a" "b" 1 [])) := rfl
  have sound := Server.sound_turns .standard _ found
  have lines : (SourceFile.ofText .html []).lines = [] := lines_eq_nil.mpr rfl
  have symbols : (SourceFile.ofText .html []).symbols = [] := by
    rw [SourceFile.symbols, lines, Line.symbolsOf]
  have highlights : Highlight.relative (SourceFile.ofText .html []).highlights = [] := by
    rw [SourceFile.highlights, lines]
    rfl
  refine ⟨going, by rw [found]; rfl, rfl, ?_, ?_⟩ <;>
    rw [Server.handle_of_open going, Server.serve, Server.withDocument_of_open found]
  · rw [← symbols]
    exact (Server.refusedIf_lineByLine sound waiting _ _ .symbols).answered fun h => h.2 rfl
  · rw [← highlights]
    exact (Server.refusedIf_lineByLine sound waiting _ _ .highlights).answered fun h => h.2 rfl

end OffsideMarkup
