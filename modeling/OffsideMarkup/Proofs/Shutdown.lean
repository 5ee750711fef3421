/-
OffsideMarkup.Proofs.Shutdown — what a server still does once it has been asked to shut down.

From then on the editor can start nothing. Every request is refused, every notification is passed
over, and no message that takes a request back is heeded, whether it comes by itself or waits behind
the request. But what was promised before is kept: a request that waits for the host goes on
waiting, and the host's reply or the clock settles it as ever.

`WindsDown` is the account of some turns in that time. It says which of the open questions are left
(those that no turn settles, `Turn.settles`), and that the messages are a refusal for each request
that has come in and an answer for each question that was settled, and nothing else. One turn winds
down (`windsDown_turn`), so any number of turns does (`windsDown_turns`).

The end is the message to exit. It is never handled itself, and what waits behind it is lost. Since
requests are refused without a look at what waits behind them, what comes in front of it is handled
as if it were all there is (`run_of_exit`).
-/
import OffsideMarkup.Proofs.BestEffort
import OffsideMarkup.Proofs.DocumentReplay

namespace OffsideMarkup

/-! ## 1. What settles and what is sent -/

/-- The turn settles a question: the host replies to it, or its time is up. -/
def Turn.settles (f : Forward) : Turn → Bool
  | .message _ _ (.response id _) => id = .number f.number
  | .message _ _ _ | .reorder _ => false
  | .tick now => f.deadline ≤ now

namespace ServerMessage

/-- The request that a message turns away because the server is shutting down. -/
def turnsAway? : ServerMessage → Option RequestId
  | .refusal id .shuttingDown => some id
  | _ => none

/-- The request that a message answers. -/
def answers? : ServerMessage → Option RequestId
  | .answer id _ => some id
  | _ => none

end ServerMessage

namespace Server

variable {s : Server}

/-- The account of turns of a server that is shutting down. -/
structure WindsDown (s : Server) (ts : List Turn) (after : Server × List ServerMessage) : Prop where
  isShuttingDown : after.1.isShuttingDown = true
  documents : after.1.documents = s.documents
  asked : after.1.asked = s.asked
  pending : after.1.pending.Perm (s.pending.filter fun f => !ts.any (·.settles f))
  turnedAway : after.2.filterMap ServerMessage.turnsAway? = ts.flatMap Turn.requests
  answered : ∀ id, (after.2.filterMap ServerMessage.answers?).count id + waiting id after.1
    = waiting id s
  sent : ∀ m ∈ after.2, (∃ id ∈ ts.flatMap Turn.requests, m = .refusal id .shuttingDown)
    ∨ ∃ f ∈ s.pending, ∃ a, m = .answer f.origin a

/-- One step after another. -/
theorem WindsDown.andThen {first second : Server × List ServerMessage} {ts us : List Turn}
    (h : WindsDown s ts first) (h' : WindsDown first.1 us second) :
    WindsDown s (ts ++ us) (second.1, first.2 ++ second.2) := by
  refine ⟨h'.isShuttingDown, h'.documents.trans h.documents, h'.asked.trans h.asked, ?_, ?_,
    fun id => ?_, fun m hm => ?_⟩
  · have both := h'.pending.trans (h.pending.filter _)
    rw [List.filter_filter] at both
    refine both.trans (.of_eq (List.filter_congr fun f _ => ?_))
    rw [List.any_append, Bool.not_or, Bool.and_comm]
  · rw [List.filterMap_append, List.flatMap_append, h.turnedAway, h'.turnedAway]
  · have one := h.answered id
    have two := h'.answered id
    rw [List.filterMap_append, List.count_append]
    dsimp only
    omega
  · rw [List.flatMap_append]
    rcases List.mem_append.mp hm with hm | hm
    · rcases h.sent m hm with ⟨id, came, rfl⟩ | answer
      · exact .inl ⟨id, List.mem_append_left _ came, rfl⟩
      · exact .inr answer
    · rcases h'.sent m hm with ⟨id, came, rfl⟩ | ⟨f, hf, answer⟩
      · exact .inl ⟨id, List.mem_append_right _ came, rfl⟩
      · exact .inr ⟨f, List.mem_of_mem_filter (h.pending.mem_iff.mp hf), answer⟩

/-- What changes nothing and answers nothing. -/
theorem windsDown_same (down : s.isShuttingDown = true) {ts : List Turn}
    {sent : List ServerMessage} (settles : ∀ f ∈ s.pending, ∀ t ∈ ts, t.settles f = false)
    (messages : sent = (ts.flatMap Turn.requests).map (.refusal · .shuttingDown)) :
    WindsDown s ts (s, sent) := by
  subst messages
  refine ⟨down, rfl, rfl, ?_, ?_, fun id => ?_, fun m hm => ?_⟩
  · refine .of_eq (List.filter_eq_self.mpr fun f hf => ?_).symm
    rw [Bool.not_eq_true', List.any_eq_false]
    intro t ht
    rw [settles f hf t ht]
    exact Bool.false_ne_true
  · rw [List.filterMap_map]
    exact List.filterMap_some
  · have none : ((ts.flatMap Turn.requests).map (ServerMessage.refusal · .shuttingDown)).filterMap
        ServerMessage.answers? = [] := by simp [ServerMessage.answers?]
    rw [none, List.count_nil, Nat.zero_add]
  · obtain ⟨id, came, rfl⟩ := List.mem_map.mp hm
    exact .inl ⟨id, came, rfl⟩

/-! ## 2. One turn -/

/-- Every request is refused. -/
theorem handle_request_of_shuttingDown (down : s.isShuttingDown = true) (now : Nat)
    (waiting : List ClientMessage) (id : RequestId) (body : Except Refusal Request) :
    s.handle now waiting (.request id body) = (s, [.refusal id .shuttingDown]) := by
  rw [handle]
  simp only [answer, down, if_true]

/-- Every notification is passed over. -/
theorem handle_notification_of_shuttingDown (down : s.isShuttingDown = true) (now : Nat)
    (waiting : List ClientMessage) (n : Option Notification) :
    s.handle now waiting (.notification n) = (s, []) := by
  cases n with
  | none => rfl
  | some n => rw [handle, if_pos down]

/-- What waits behind a message makes no difference. -/
theorem handle_congr_of_shuttingDown (down : s.isShuttingDown = true) (now : Nat)
    (waiting other : List ClientMessage) (m : ClientMessage) :
    s.handle now waiting m = s.handle now other m := by
  cases m with
  | request id body =>
    rw [handle_request_of_shuttingDown down, handle_request_of_shuttingDown down]
  | response id reply => rfl
  | notification n =>
    rw [handle_notification_of_shuttingDown down, handle_notification_of_shuttingDown down]

/-- A question is settled with an answer to the request that waits. -/
theorem exists_answer_settle (s : Server) (now : Nat) (f : Forward) (result : Option Json) :
    ∃ a, (s.settle now f result).2 = [.answer f.origin a] := by
  rw [settle]
  split <;> exact ⟨_, rfl⟩

theorem aside_settle (s : Server) (now : Nat) (f : Forward) (result : Option Json) :
    (s.settle now f result).1.isShuttingDown = s.isShuttingDown
      ∧ (s.settle now f result).1.documents = s.documents := by
  rw [settle]
  split <;> exact ⟨rfl, rfl⟩

/-- A reply to an open question answers the request that waits, and no other. -/
theorem windsDown_settle (down : s.isShuttingDown = true) (n : s.Numbered) {f : Forward}
    (hf : f ∈ s.pending) (now : Nat) (waiting : List ClientMessage) (reply : HostReply) :
    WindsDown s [.message now waiting (.response (.number f.number) reply)]
      ((s.forget f).settle now f reply.result?) := by
  obtain ⟨pending, asked⟩ := pending_settle (s.forget f) now f reply.result?
  obtain ⟨shuttingDown, documents⟩ := aside_settle (s.forget f) now f reply.result?
  obtain ⟨a, messages⟩ := exists_answer_settle (s.forget f) now f reply.result?
  refine ⟨shuttingDown.trans down, documents, asked, ?_, ?_, fun id => ?_, fun m hm => ?_⟩
  · rw [pending, forget]
    refine .of_eq (List.filter_congr fun g _ => ?_)
    rw [List.any_cons, List.any_nil, Bool.or_false, Turn.settles, Bool.eq_iff_iff, bne_iff_ne,
      Bool.not_eq_true', decide_eq_false_iff_not, RequestId.number.injEq, Int.ofNat_inj]
    exact ne_comm
  · rw [messages]
    rfl
  · have same : Server.waiting id ((s.forget f).settle now f reply.result?).1
        = Server.waiting id (s.forget f) := by rw [Server.waiting, Server.waiting, pending]
    rw [messages, same, ← waiting_forget n hf id]
    rfl
  · rw [messages] at hm
    exact .inr ⟨f, hf, a, List.mem_singleton.mp hm⟩

/-- A tick answers the requests whose time has come, and no others. -/
theorem windsDown_expire (down : s.isShuttingDown = true) (n : s.Numbered) (now : Nat) :
    WindsDown s [.tick now] (s.expire now) := by
  rw [n.expire]
  refine ⟨down, rfl, rfl, ?_, ?_, fun id => ?_, fun m hm => ?_⟩
  · refine .of_eq (List.filter_congr fun f _ => ?_)
    rw [List.any_cons, List.any_nil, Bool.or_false, Turn.settles, Bool.eq_iff_iff]
    simp
  · rw [List.filterMap_map]
    exact List.filterMap_eq_nil_iff.mpr fun f _ => rfl
  · have origins : ((s.pending.filter (·.deadline ≤ now)).map Forward.ownAnswer).filterMap
        ServerMessage.answers? = (s.pending.filter (·.deadline ≤ now)).map Forward.origin := by
      rw [List.filterMap_map, ← List.filterMap_eq_map]
      rfl
    have late : s.pending.filter (now < ·.deadline)
        = s.pending.filter fun f => !decide (f.deadline ≤ now) :=
      List.filter_congr fun f _ => by rw [← decide_not, decide_eq_decide, Nat.not_le]
    rw [origins, waiting, waiting, late, List.count, List.countP_map]
    exact (List.countP_eq_countP_filter_add s.pending _ (·.deadline ≤ now)).symm
  · obtain ⟨f, hf, rfl⟩ := List.mem_map.mp hm
    exact .inr ⟨f, List.mem_of_mem_filter hf, _, rfl⟩

/-- In another order, the requests that wait are the same ones. -/
theorem windsDown_reorder (down : s.isShuttingDown = true) (pending : List Forward) :
    WindsDown s [.reorder pending] (s.reorder pending, []) := by
  obtain ⟨fs, perm, same⟩ := s.reorder_eq pending
  rw [same]
  refine ⟨down, rfl, rfl, ?_, rfl, fun id => ?_, by simp⟩
  · exact perm.trans (.of_eq (List.filter_eq_self.mpr fun f _ => rfl).symm)
  · exact (Nat.zero_add _).trans (perm.countP_eq _)

theorem windsDown_turn (down : s.isShuttingDown = true) (n : s.Numbered) (t : Turn) :
    WindsDown s [t] (s.turn t) := by
  cases t with
  | tick now => exact windsDown_expire down n now
  | reorder pending => exact windsDown_reorder down pending
  | message now waiting m =>
    rw [turn]
    cases m with
    | request id body =>
      rw [handle_request_of_shuttingDown down]
      exact windsDown_same down (by simp [Turn.settles]) rfl
    | notification body =>
      rw [handle_notification_of_shuttingDown down]
      exact windsDown_same down (by simp [Turn.settles]) rfl
    | response id reply =>
      cases found : s.pending.find? fun f => id = .number f.number with
      | some f =>
        have number : id = .number f.number := by simpa using List.find?_some found
        have hf := List.mem_of_find?_eq_some found
        rw [number, n.handle_response_of_pending hf]
        exact windsDown_settle down n hf now waiting reply
      | none =>
        have other : ∀ f ∈ s.pending, id ≠ .number f.number := fun f hf => by
          simpa using List.find?_eq_none.mp found f hf
        rw [handle_response_of_settled other]
        refine windsDown_same down (fun f hf t ht => ?_) rfl
        rw [List.mem_singleton.mp ht, Turn.settles]
        exact decide_eq_false (other f hf)

/-! ## 3. Any number of turns -/

/-- Open questions keep their numbers, and no number is given any more. -/
theorem WindsDown.numbered {ts : List Turn} {after : Server × List ServerMessage}
    (h : WindsDown s ts after) (n : s.Numbered) : after.1.Numbered := by
  refine ⟨?_, fun f hf => ?_⟩
  · rw [(h.pending.map Forward.number).nodup_iff]
    exact n.distinct.sublist (List.filter_sublist.map Forward.number)
  · rw [h.asked]
    exact n.asked f (List.mem_of_mem_filter (h.pending.mem_iff.mp hf))

theorem windsDown_turns (down : s.isShuttingDown = true) (n : s.Numbered) (ts : List Turn) :
    WindsDown s ts (s.turns ts) :=
  turns_account (P := fun s ts after => s.isShuttingDown = true → s.Numbered → WindsDown s ts after)
    (fun _ down _ => windsDown_same down (by simp) rfl)
    (fun h h' down n =>
      have first := h down n
      first.andThen (h' first.isShuttingDown (first.numbered n)))
    (fun _ t down n => windsDown_turn down n t) s ts down n

section

variable {ts : List Turn} {after : Server × List ServerMessage}

/-- As many answers go to a request as questions are settled that it waits for. -/
theorem WindsDown.count_answers (h : WindsDown s ts after) (id : RequestId) :
    (after.2.filterMap ServerMessage.answers?).count id
      = s.pending.countP fun f => f.origin = id && ts.any (·.settles f) := by
  have account := h.answered id
  have whole := List.countP_eq_countP_filter_add s.pending (·.origin = id)
    fun f => ts.any (·.settles f)
  rw [waiting, waiting, h.pending.countP_eq] at account
  rw [List.countP_filter] at whole
  omega

/-- Nothing is published, and the host is asked nothing. -/
theorem WindsDown.silent (h : WindsDown s ts after) :
    after.2.filter ServerMessage.isPublication = [] ∧ issued after.2 = [] := by
  rw [List.filter_eq_nil_iff, issued, List.filterMap_eq_nil_iff, ← forall₂_and]
  intro m hm
  rcases h.sent m hm with ⟨id, -, rfl⟩ | ⟨f, -, a, rfl⟩ <;> exact ⟨Bool.false_ne_true, rfl⟩

end

/-! ## 4. The end -/

/-- Messages in front of the one to exit are handled as if nothing stood behind them. -/
theorem turns_ofBatch_exit (down : s.isShuttingDown = true) (n : s.Numbered) (now : Nat)
    {before : List ClientMessage} (inner : ∀ m ∈ before, m.isExit = false)
    (behind : List ClientMessage) :
    s.turns (Turn.ofBatch now (before ++ .notification (some .exit) :: behind))
      = s.turns (Turn.ofBatch now before) := by
  induction before generalizing s with
  | nil => rfl
  | cons m later ih =>
    have more := inner m List.mem_cons_self
    have first := windsDown_turn down n (.message now later m)
    rw [turn] at first
    have same := handle_congr_of_shuttingDown down now
      (later ++ .notification (some .exit) :: behind) later m
    rw [List.cons_append, Turn.ofBatch, Turn.ofBatch, more, if_neg Bool.false_ne_true,
      if_neg Bool.false_ne_true, turns, turns, turn, turn, same]
    rw [ih first.isShuttingDown (first.numbered n) fun d hd => inner d (.tail m hd)]

/-- The message to exit ends the session. What stands behind it, and whatever happens later, has no
effect. -/
theorem run_of_exit (down : s.isShuttingDown = true) (n : s.Numbered) (now : Nat)
    {before : List ClientMessage} (inner : ∀ m ∈ before, m.isExit = false)
    (behind : List ClientMessage) (more : List Event) :
    (⟨s, false⟩ : Session).run
        (.batch now (before ++ .notification (some .exit) :: behind) :: more)
      = (⟨(s.turns (Turn.ofBatch now before)).1, true⟩,
          (s.turns (Turn.ofBatch now before)).2) := by
  have handled := Session.handleAll_eq_turns s now
    (before ++ .notification (some .exit) :: behind)
  have closed := Session.isClosed_handleAll s now
    (before ++ .notification (some .exit) :: behind)
  rw [turns_ofBatch_exit down n now inner] at handled
  rw [List.any_append, List.any_cons] at closed
  have closed := closed.trans (Bool.or_true _)
  rw [Session.run, Session.step, if_neg Bool.false_ne_true]
  dsimp only
  generalize Session.handleAll s now _ = r at handled closed ⊢
  obtain ⟨⟨server, isClosed⟩, sent⟩ := r
  obtain rfl : isClosed = true := closed
  rw [Session.run_of_closed rfl, List.append_nil, ← handled]

end Server

/-! ## 5. After any turns -/

/-- A request to shut down that comes in after any turns of a session is answered, and from then on,
after any later turns: every request is refused as invalid, every notification is passed over, a
reply to an open question settles it, and a tick settles those whose time has come, in whatever
order the open questions are gone over. So over those later turns no document changes, nothing is
published and the host is asked nothing; the refusals are one for each request that has come in, and
all else that is sent is answers to requests that were waiting. Those are answered once each when a
turn settles their questions, and wait until then. The message to exit ends the session: what comes
in front of it is handled as if it were all there is, and what stands behind it has no effect. A
session that goes through these turns ends with the server that is reached by them, and with the
messages that it has sent. -/
theorem orderly_shutdown (config : Config) (history later : List Turn) (now : Nat)
    (waiting : List ClientMessage) (id : RequestId) :
    let running := ((Server.create config).turns history).1
    let asked := running.handle now waiting (.request id (.ok .shutdown))
    let s := asked.1
    let t := (s.turns later).1
    let sent := (s.turns later).2
    (s = { running with isShuttingDown := true }
        ∧ (running.isShuttingDown = false → asked.2 = [.answer id .nothing]))
      ∧ (∀ now waiting id body,
          t.handle now waiting (.request id body) = (t, [.refusal id .shuttingDown]))
      ∧ Refusal.shuttingDown.code = -32600
      ∧ (∀ now waiting n, t.handle now waiting (.notification n) = (t, []))
      ∧ (∀ f ∈ t.pending, ∀ now waiting reply,
          t.handle now waiting (.response (.number f.number) reply)
            = (t.forget f).settle now f reply.result?)
      ∧ (∀ fs, fs.Perm t.pending → ∀ now, Server.expire { t with pending := fs } now
          = ({ t with pending := fs.filter (now < ·.deadline) },
            (fs.filter (·.deadline ≤ now)).map Forward.ownAnswer))
      ∧ t.documents = s.documents
      ∧ sent.filter ServerMessage.isPublication = []
      ∧ issued sent = []
      ∧ sent.filterMap ServerMessage.turnsAway? = later.flatMap Turn.requests
      ∧ (∀ m ∈ sent, (∃ id, m = .refusal id .shuttingDown)
          ∨ ∃ f ∈ s.pending, ∃ a, m = .answer f.origin a)
      ∧ (∀ id, (sent.filterMap ServerMessage.answers?).count id
          = s.pending.countP fun f => f.origin = id && later.any (·.settles f))
      ∧ t.pending.Perm (s.pending.filter fun f => !later.any (·.settles f))
      ∧ (∀ now before behind more, (∀ m ∈ before, m.isExit = false) →
          (⟨t, false⟩ : Session).run
              (.batch now (before ++ .notification (some .exit) :: behind) :: more)
            = (⟨(t.turns (Turn.ofBatch now before)).1, true⟩,
                (t.turns (Turn.ofBatch now before)).2))
      ∧ (∀ events, Turn.ofEvents events
            = history ++ .message now waiting (.request id (.ok .shutdown)) :: later →
          ((Session.create config).run events).1.server = t
            ∧ ((Session.create config).run events).2
              = ((Server.create config).turns history).2 ++ (asked.2 ++ sent)) := by
  intro running asked s t sent
  have n : running.Numbered := Server.numbered_turns config history
  have shut : s = { running with isShuttingDown := true } := by
    show (running.handle now waiting (.request id (.ok .shutdown))).1 = _
    cases down : running.isShuttingDown with
    | true =>
      rw [Server.handle_request_of_shuttingDown down, ← down]
    | false =>
      rw [Server.handle]
      simp only [Server.answer, down, Bool.false_eq_true, if_false, Server.serve]
  have down : s.isShuttingDown = true := by rw [shut]
  have numbered : s.Numbered := by rw [shut]; exact ⟨n.distinct, n.asked⟩
  have account := Server.windsDown_turns down numbered later
  have still : t.isShuttingDown = true := account.isShuttingDown
  have left : t.Numbered := account.numbered numbered
  refine ⟨⟨shut, fun going => ?_⟩, Server.handle_request_of_shuttingDown still, rfl,
    Server.handle_notification_of_shuttingDown still,
    fun f hf => left.handle_response_of_pending hf, fun fs => left.expire_of_perm,
    account.documents,
    account.silent.1, account.silent.2, account.turnedAway, fun m hm => ?_,
    account.count_answers, account.pending,
    fun now before behind more inner => Server.run_of_exit still left now inner behind more,
    fun events through => ?_⟩
  · show (running.handle now waiting (.request id (.ok .shutdown))).2 = _
    rw [Server.handle]
    simp only [Server.answer, going, Bool.false_eq_true, if_false, Server.serve]
  · rcases account.sent m hm with ⟨id, -, refused⟩ | answered
    · exact .inl ⟨id, refused⟩
    · exact .inr answered
  · have run := (Session.turns_ofEvents config events).symm
    rw [through, Server.turns_append] at run
    exact ⟨congrArg Prod.fst run, congrArg Prod.snd run⟩

/-- A request to complete waits for the host when the server is asked to shut down. Taking it back
is not heeded, and another request is refused. The host's time is up. -/
theorem orderly_shutdown_of_deferred :
    let running := ((Server.create .standard).turns
      [.message 0 [] (.notification (some (.opened "a" "b" 1 ['>']))),
        .message 1 [] (.request (.number 1) (.ok (.completion "a" ⟨0, 1⟩)))]).1
    let s := (running.handle 2 [] (.request (.number 2) (.ok .shutdown))).1
    let sent := (s.turns [.message 3 [] (.notification (some (.cancelled (.number 1)))),
      .message 4 [] (.request (.number 3) (.ok (.folds "a"))), .tick 5001]).2
    sent.filterMap ServerMessage.turnsAway? = [.number 3]
      ∧ (sent.filterMap ServerMessage.answers?).count (.number 1) = 1 := by
  intro running s sent
  have account := orderly_shutdown .standard
    [.message 0 [] (.notification (some (.opened "a" "b" 1 ['>']))),
      .message 1 [] (.request (.number 1) (.ok (.completion "a" ⟨0, 1⟩)))]
    [.message 3 [] (.notification (some (.cancelled (.number 1)))),
      .message 4 [] (.request (.number 3) (.ok (.folds "a"))), .tick 5001] 2 [] (.number 2)
  obtain ⟨-, -, -, -, -, -, -, -, -, refused, -, answered, -⟩ := account
  refine ⟨refused, (answered (.number 1)).trans ?_⟩
  decide +kernel

end OffsideMarkup
