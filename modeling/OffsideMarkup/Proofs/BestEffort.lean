/-
OffsideMarkup.Proofs.BestEffort — the host helps if it can, and never does harm.

A question to the host is settled once, in one of three ways: the host replies, its time is up, or
the request is taken back. Whatever goes wrong with the reply, the editor is told the same as when
no reply comes at all, namely what there is without the host (`Question.Unanswered`,
`Forward.ownAnswer`), and nothing is kept of it. A good reply adds to that.

Which question a reply belongs to is a matter of its number. Numbers are given one after the other,
so they are all different, and a number that is settled stays settled: a reply that comes too late,
twice, or to nothing at all meets no open question and is passed over.

* `handle_response_of_pending`, `handle_response_of_settled` — a reply to an open question, and any
  other.
* `Numbered.withdraws_cancel` — a request that is taken back.
* `nodup_issued`, `settled_forever` — numbers.
* `best_effort` — all of it, after any turns.
-/
import OffsideMarkup.Proofs.Outcomes

namespace OffsideMarkup

/-! ## 1. Replies -/

/-- A reply that brings nothing: the host has failed, or its result is null or not of the form that
was asked for. -/
inductive Question.Unanswered : Question → HostReply → Prop
  | failure (q : Question) (report : Json) : Unanswered q (.failure report)
  | null (q : Question) : Unanswered q (.result .null)
  | noList {offered : List Modifier} {target : Target} {value : Json}
      (h : HostList.ofJson? value = none) : Unanswered (.completion offered target) (.result value)
  | noHover {fragment : Fragment} {value : Json} (h : HostHover.ofJson? value = none) :
      Unanswered (.hover fragment) (.result value)

/-- A response that has neither an error nor a result has the result null. -/
theorem ClientMessage.replyOf_of_absent {j : Json} (error : j.get? "error" = none)
    (result : j.get? "result" = none) : replyOf j = .result .null := by
  simp [replyOf, error, result]

theorem HostList.ofJson?_null : ofJson? .null = none := by
  simp [ofJson?, Shape.completionList, Shape.read?]

theorem HostHover.ofJson?_null : ofJson? .null = none := by
  simp [ofJson?, Shape.hover, Shape.read?]

namespace Server

variable {s : Server} {f : Forward}

/-- A reply that brings nothing is settled as no reply is. -/
theorem settle_of_unanswered {reply : HostReply} (h : f.question.Unanswered reply) (s : Server)
    (now : Nat) : s.settle now f reply.result? = (s, [f.ownAnswer]) := by
  rw [← settle_none s now f]
  obtain ⟨number, origin, deadline, question⟩ := f
  cases h with
  | failure => rfl
  | null =>
    cases question with
    | completion offered target =>
      simp only [settle, HostReply.result?, Option.bind_some, HostList.ofJson?_null,
        Option.bind_none]
    | hover fragment =>
      simp only [settle, HostReply.result?, Option.bind_some, HostHover.ofJson?_null,
        Option.bind_none]
  | noList none =>
    simp only [settle, HostReply.result?, Option.bind_some, none, Option.bind_none]
  | noHover none =>
    simp only [settle, HostReply.result?, Option.bind_some, none, Option.bind_none]

/-- A question is found by its number. -/
theorem Numbered.find?_number (n : s.Numbered) (hf : f ∈ s.pending) :
    s.pending.find? (fun g => RequestId.number f.number = .number g.number) = some f := by
  cases found : s.pending.find? (fun g => RequestId.number f.number = .number g.number) with
  | none => exact absurd (List.find?_eq_none.mp found f hf) (by simp)
  | some g =>
    have same : (f.number : Int) = g.number := by simpa using List.find?_some found
    rw [List.inj_on_of_nodup_map n.distinct hf (List.mem_of_find?_eq_some found)
      (Int.ofNat_inj.mp same)]

/-- A reply to an open question settles that question. -/
theorem Numbered.handle_response_of_pending (n : s.Numbered) (hf : f ∈ s.pending) (now : Nat)
    (waiting : List ClientMessage) (reply : HostReply) :
    s.handle now waiting (.response (.number f.number) reply)
      = (s.forget f).settle now f reply.result? := by
  rw [handle, resume, n.find?_number hf]

/-- A reply to anything else is passed over. -/
theorem handle_response_of_settled {id : RequestId} (h : ∀ f ∈ s.pending, id ≠ .number f.number)
    (now : Nat) (waiting : List ClientMessage) (reply : HostReply) :
    s.handle now waiting (.response id reply) = (s, []) := by
  have none : s.pending.find? (fun f => id = .number f.number) = none :=
    List.find?_eq_none.mpr fun f hf => by simpa using h f hf
  rw [handle, resume, none]

/-- What becomes of a request that is taken back. If a question is open for it, one of these is
withdrawn: the first in the order in which the table is gone over. -/
inductive Withdraws (s : Server) (id : RequestId) : Server × List ServerMessage → Prop
  | nothing (none : ∀ f ∈ s.pending, f.origin ≠ id) : Withdraws s id (s, [])
  | first {before after : List Forward} {f : Forward} (at_f : s.pending = before ++ f :: after)
      (origin : f.origin = id) (earlier : ∀ g ∈ before, g.origin ≠ id) :
      Withdraws s id ({ s with pending := before ++ after },
        [.withdrawal f.number, .refusal id (.fault .requestCancelled)])

/-- Of questions with different numbers, forgetting one leaves those before and behind it. -/
theorem Numbered.forget_eq (n : s.Numbered) {before after : List Forward}
    (at_f : s.pending = before ++ f :: after) :
    s.forget f = { s with pending := before ++ after } := by
  have distinct := n.distinct
  rw [at_f, List.map_append, List.map_cons, List.nodup_middle, List.nodup_cons,
    ← List.map_append] at distinct
  have others : (before ++ after).filter (·.number != f.number) = before ++ after :=
    List.filter_eq_self.mpr fun g hg =>
      bne_iff_ne.mpr fun same => distinct.1 (same ▸ List.mem_map_of_mem hg)
  rw [List.filter_append] at others
  rw [Server.forget, at_f, List.filter_append, List.filter_cons_of_neg (by simp), others]

theorem Numbered.withdraws_cancel (n : s.Numbered) (id : RequestId) :
    Withdraws s id (s.cancel id) := by
  rw [cancel]
  split
  · next f found =>
    obtain ⟨origin, before, after, at_f, earlier⟩ := List.find?_eq_some_iff_append.mp found
    rw [n.forget_eq at_f]
    exact .first at_f (by simpa using origin) fun g hg => by simpa using earlier g hg
  · next none =>
    exact .nothing fun f hf => by simpa using List.find?_eq_none.mp none f hf

/-! ## 2. Numbers -/

theorem nodup_issued (s : Server) (ts : List Turn) : (issued (s.turns ts).2).Nodup := by
  rw [(issues_turns s ts).issued]
  exact List.nodup_range'

/-- From the start of a session on, open questions have been asked. -/
theorem number_mem_issued {config : Config} {ts : List Turn}
    (hf : f ∈ ((create config).turns ts).1.pending) :
    f.number ∈ issued ((create config).turns ts).2 := by
  rcases (issues_turns (create config) ts).pending f hf with before | now
  · exact absurd before (by simp [create])
  · exact now

/-- A number that has been given, and is open no more, is never open again. -/
theorem settled_forever {number : Nat} (given : number ≤ s.asked)
    (settled : ∀ f ∈ s.pending, f.number ≠ number) (later : List Turn) :
    ∀ f ∈ (s.turns later).1.pending, f.number ≠ number := by
  rintro f hf rfl
  exact settled f (mem_pending_of_turns hf given) rfl

/-- The numbers that have been given since the start of a session. -/
theorem mem_issued_create {config : Config} {ts : List Turn} {number : Nat} :
    number ∈ issued ((create config).turns ts).2
      ↔ 0 < number ∧ number ≤ ((create config).turns ts).1.asked := by
  have start : (create config).asked = 0 := rfl
  rw [(issues_turns (create config) ts).issued, List.mem_range'_1, start]
  omega

end Server

/-! ## 3. After any turns -/

/-- The help of the host is best effort. After any turns of a session, for each question that is
open: a reply that brings nothing leaves everything else as it is, and answers with what there is
without the host; a list answers with that and with what fits of the list, as complete as the list
says it is, and may be kept; something to show answers with its contents and nothing else. Whatever
the order in which the open questions are gone over, a tick answers each request whose time has come
as a reply that brings nothing does, in that order, and a request that is taken back has the first
of its questions withdrawn. A response to anything but an open question changes nothing and sends
nothing. No two questions ever have one number; a number that was not given, or that has been
settled, is not open, however the session goes on. -/
theorem best_effort (config : Config) (history : List Turn) :
    let s := ((Server.create config).turns history).1
    let sent := ((Server.create config).turns history).2
    (∀ f ∈ s.pending,
        (∀ now waiting reply, f.question.Unanswered reply →
          s.handle now waiting (.response (.number f.number) reply)
            = (s.forget f, [f.ownAnswer]))
        ∧ (∀ offered target, f.question = .completion offered target →
          ∀ now waiting value list, HostList.ofJson? value = some list →
            s.handle now waiting (.response (.number f.number) (.result value))
              = ({ s.forget f with cache := s.cache.store now target list },
                [.answer f.origin (.completion list.isIncomplete
                  (offered.map .modifier ++ (target.select list).items.map .host))]))
        ∧ (∀ fragment, f.question = .hover fragment →
          ∀ now waiting value hover, HostHover.ofJson? value = some hover →
            s.handle now waiting (.response (.number f.number) (.result value))
                = (s.forget f, [.answer f.origin (.hostHover hover)])
              ∧ (Answer.hostHover hover).toJson = .obj [("contents", hover.contents)]))
      ∧ (∀ fs, fs.Perm s.pending → let t := { s with pending := fs }
          (∀ now, t.expire now
              = ({ s with pending := fs.filter (now < ·.deadline) },
                (fs.filter (·.deadline ≤ now)).map Forward.ownAnswer))
            ∧ ∀ id, t.Withdraws id (t.cancel id))
      ∧ (∀ j : Json, j.get? "error" = none → j.get? "result" = none →
          ClientMessage.replyOf j = .result .null)
      ∧ (∀ id, (∀ f ∈ s.pending, id ≠ .number f.number) →
          ∀ now waiting reply, s.handle now waiting (.response id reply) = (s, []))
      ∧ (issued sent).Nodup
      ∧ (∀ f ∈ s.pending, f.number ∈ issued sent)
      ∧ (∀ number ∈ issued sent, (∀ f ∈ s.pending, f.number ≠ number) →
          ∀ later, ∀ f ∈ (s.turns later).1.pending, f.number ≠ number) := by
  have n := Server.numbered_turns config history
  refine ⟨fun f hf => ⟨fun now waiting reply brings => ?_, fun offered target asked => ?_,
      fun fragment asked => ?_⟩,
    fun fs perm => ⟨n.expire_of_perm perm, (n.of_perm perm).withdraws_cancel⟩,
    fun j => ClientMessage.replyOf_of_absent,
    fun id other => Server.handle_response_of_settled other, Server.nodup_issued _ _,
    fun f hf => Server.number_mem_issued hf, fun number given => ?_⟩
  · rw [n.handle_response_of_pending hf, Server.settle_of_unanswered brings]
  · intro now waiting value list decoded
    rw [n.handle_response_of_pending hf, Server.settle, asked]
    simp only [HostReply.result?, Option.bind_some, decoded, Option.elim_some, Server.offers,
      Server.forget]
  · intro now waiting value hover decoded
    refine ⟨?_, rfl⟩
    rw [n.handle_response_of_pending hf, Server.settle, asked]
    simp only [HostReply.result?, Option.bind_some, decoded, Option.elim_some]
  · exact Server.settled_forever (Server.mem_issued_create.mp given).2

/-- The host replies when its time is up. -/
theorem best_effort_of_late_reply :
    let s := ((Server.create .standard).turns
      [.message 0 [] (.notification (some (.opened "a" "b" 1 ['>']))),
        .message 1 [] (.request (.number 1) (.ok (.completion "a" ⟨0, 1⟩))), .tick 5001]).1
    ∀ reply, s.handle 5002 [] (.response (.number 1) reply) = (s, []) := by
  intro s
  have settled : s.pending.isEmpty = true := by decide +kernel
  have unknown : ∀ f ∈ s.pending, RequestId.number 1 ≠ .number f.number := by
    rw [List.isEmpty_iff.mp settled]
    exact fun f none => absurd none (by simp)
  exact (best_effort .standard _).2.2.2.1 (.number 1) unknown 5002 []

end OffsideMarkup
