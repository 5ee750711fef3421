/-
OffsideMarkup.Proofs.Outcomes — what a turn does about the questions to the host.

Most of what a turn does has nothing to do with the host. `Outcome` lists what may be done about the
questions to the host, and `outcome_turn` is the one place where the cases of a message are gone
through for that.

* `issues_turns` — questions are numbered one after the other, and none of them is asked again.
* `Numbered.expire`, `Numbered.expire_of_perm` — a tick, over the open questions in the order that
  they have, and in any order.
-/
import OffsideMarkup.Proofs.Settlement

namespace OffsideMarkup

/-! ## 1. What a turn does about questions -/

/-- The number of a question. -/
def ServerMessage.question? : ServerMessage → Option Nat
  | .question number _ => some number
  | _ => none

/-- The numbers of the questions among some messages. -/
def issued (messages : List ServerMessage) : List Nat :=
  messages.filterMap ServerMessage.question?

theorem issued_append (ms ns : List ServerMessage) : issued (ms ++ ns) = issued ms ++ issued ns :=
  List.filterMap_append

namespace Server

variable {s : Server} {after : Server × List ServerMessage}

/-- The open question that a turn replies to. -/
def repliedTo? (s : Server) : Turn → Option Forward
  | .message _ _ (.response id _) => s.pending.find? fun f => id = .number f.number
  | _ => none

/-- A step that has nothing to do with the host. -/
structure Aside (s : Server) (after : Server × List ServerMessage) : Prop where
  config : after.1.config = s.config
  asked : after.1.asked = s.asked
  pending : after.1.pending = s.pending
  cache : after.1.cache = s.cache
  issued : issued after.2 = []

/-- What a turn may do about the questions to the host. -/
inductive Outcome (s : Server) : Turn → Server × List ServerMessage → Prop
  | aside {t : Turn} {after : Server × List ServerMessage} (silent : s.repliedTo? t = none)
      (h : Aside s after) : Outcome s t after
  | asked {now : Nat} {waiting : List ClientMessage} {id : RequestId}
      {body : Except Refusal Request} (q : Question) :
      Outcome s (.message now waiting (.request id body)) (s.ask now id q)
  | resumed {now : Nat} {waiting : List ClientMessage} {id : RequestId} {reply : HostReply}
      {f : Forward} (found : s.pending.find? (fun f => id = .number f.number) = some f) :
      Outcome s (.message now waiting (.response id reply))
        ((s.forget f).settle now f reply.result?)
  | withdrawn {now : Nat} {waiting : List ClientMessage} {id : RequestId} {f : Forward}
      (found : s.pending.find? (·.origin = id) = some f) :
      Outcome s (.message now waiting (.notification (some (.cancelled id))))
        (s.forget f, [.withdrawal f.number, .refusal id (.fault .requestCancelled)])
  | expired (now : Nat) : Outcome s (.tick now) (s.expire now)
  | reordered {pending fs : List Forward} (perm : fs.Perm s.pending) :
      Outcome s (.reorder pending) ({ s with pending := fs }, [])

theorem aside_same (s : Server) : Aside s (s, []) := ⟨rfl, rfl, rfl, rfl, rfl⟩

theorem aside_reply (s : Server) (id : RequestId) (outcome : Except Fault Answer) :
    Aside s (s, [reply id outcome]) := by
  refine ⟨rfl, rfl, rfl, rfl, ?_⟩
  cases outcome <;> rfl

section

variable {now : Nat} {waiting : List ClientMessage} {id : RequestId}
  {body : Except Refusal Request}

/-- A request replies to no question. -/
theorem Aside.request (h : Aside s after) :
    Outcome s (.message now waiting (.request id body)) after := .aside rfl h

theorem outcome_withDocument {uri : String} {next : Analysis → Server × List ServerMessage}
    (h : ∀ a, Outcome s (.message now waiting (.request id body)) (next a)) :
    Outcome s (.message now waiting (.request id body)) (s.withDocument id uri next) := by
  rw [withDocument]
  split
  · exact h _
  · exact (aside_reply s id _).request

theorem outcome_complete (a : Analysis) (p : Position) :
    Outcome s (.message now waiting (.request id body)) (s.complete now id a p) := by
  rw [complete]
  split
  · exact (aside_reply s id (.ok _)).request
  · split
    · exact (aside_reply s id (.ok _)).request
    · exact .asked _

theorem outcome_explain (a : Analysis) (p : Position) :
    Outcome s (.message now waiting (.request id body)) (s.explain now id a p) := by
  rw [explain]
  split
  · exact (aside_reply s id (.ok _)).request
  · exact (aside_reply s id (.ok _)).request
  · exact .asked _

theorem outcome_serve (cancelled : Bool) (request : Request) :
    Outcome s (.message now waiting (.request id body)) (s.serve now cancelled id request) := by
  cases request with
  | shutdown => exact Aside.request ⟨rfl, rfl, rfl, rfl, rfl⟩
  | folds uri =>
    refine outcome_withDocument fun a => Aside.request ⟨rfl, rfl, rfl, rfl, ?_⟩
    exact (aside_reply s id _).issued
  | symbols uri => exact outcome_withDocument fun a => (aside_reply s id _).request
  | highlights uri => exact outcome_withDocument fun a => (aside_reply s id _).request
  | completion uri p => exact outcome_withDocument fun a => outcome_complete a p
  | hover uri p => exact outcome_withDocument fun a => outcome_explain a p
  | keyHints uri => exact outcome_withDocument fun a => (aside_reply s id (.ok _)).request

theorem outcome_answer (cancelled : Bool) :
    Outcome s (.message now waiting (.request id body)) (s.answer now cancelled id body) := by
  simp only [answer]
  split
  · exact Aside.request ⟨rfl, rfl, rfl, rfl, rfl⟩
  · split
    · exact Aside.request ⟨rfl, rfl, rfl, rfl, rfl⟩
    · exact outcome_serve cancelled _

end

theorem outcome_notice (now : Nat) (waiting : List ClientMessage) (n : Notification) :
    Outcome s (.message now waiting (.notification (some n))) (s.notice n) := by
  cases n with
  | opened uri language version text => exact .aside rfl ⟨rfl, rfl, rfl, rfl, rfl⟩
  | changed uri version changes =>
    rw [notice]
    split
    · exact .aside rfl ⟨rfl, rfl, rfl, rfl, rfl⟩
    · exact .aside rfl (aside_same s)
  | closed uri => exact .aside rfl ⟨rfl, rfl, rfl, rfl, rfl⟩
  | cancelled id =>
    rw [notice, cancel]
    split
    · next f found => exact .withdrawn found
    · exact .aside rfl (aside_same s)
  | exit => exact .aside rfl (aside_same s)

/-- The outcome of a turn, by what the server deals with in it. -/
theorem outcome_turn (s : Server) (t : Turn) : Outcome s t (s.turn t) := by
  cases t with
  | tick now => exact .expired now
  | reorder pending =>
    obtain ⟨fs, perm, same⟩ := s.reorder_eq pending
    rw [turn, same]
    exact .reordered perm
  | message now waiting m =>
    rw [turn]
    cases m with
    | request id body => exact outcome_answer _
    | response id reply =>
      rw [handle, resume]
      split
      · next f found => exact .resumed found
      · next none => exact .aside none (aside_same s)
    | notification n =>
      cases n with
      | none => exact .aside rfl (aside_same s)
      | some n =>
        rw [handle]
        split
        · exact .aside rfl (aside_same s)
        · exact outcome_notice now waiting n

/-! ## 2. Numbers of questions -/

/-- A step gives the next numbers, and what it leaves open was open before or has one of them. -/
structure Issues (s : Server) (after : Server × List ServerMessage) : Prop where
  issued : issued after.2 = List.range' (s.asked + 1) (after.1.asked - s.asked)
  asked : s.asked ≤ after.1.asked
  pending : ∀ f ∈ after.1.pending, f ∈ s.pending ∨ f.number ∈ OffsideMarkup.issued after.2

theorem Issues.andThen {first second : Server × List ServerMessage} (h : Issues s first)
    (h' : Issues first.1 second) : Issues s (second.1, first.2 ++ second.2) := by
  have le := h.asked
  have le' := h'.asked
  refine ⟨?_, Nat.le_trans le le', fun f hf => ?_⟩
  · have next : first.1.asked + 1 = s.asked + 1 + (first.1.asked - s.asked) := by omega
    have both : second.1.asked - s.asked
        = (first.1.asked - s.asked) + (second.1.asked - first.1.asked) := by omega
    rw [issued_append, h.issued, h'.issued, next, both, List.range'_append_1]
  · rw [issued_append, List.mem_append]
    rcases h'.pending f hf with old | new
    · rcases h.pending f old with older | new
      · exact .inl older
      · exact .inr (.inl new)
    · exact .inr (.inr new)

/-- A step that asks nothing, and leaves open what was open. -/
theorem issues_none (asked : after.1.asked = s.asked)
    (pending : ∀ f ∈ after.1.pending, f ∈ s.pending) (silent : issued after.2 = []) :
    Issues s after := by
  refine ⟨?_, Nat.le_of_eq asked.symm, fun f hf => .inl (pending f hf)⟩
  rw [silent, asked, Nat.sub_self]
  rfl

theorem issued_settle (s : Server) (now : Nat) (f : Forward) (result : Option Json) :
    issued (s.settle now f result).2 = [] := by
  rw [settle]
  split <;> rfl

theorem issues_settle (s : Server) (now : Nat) (f : Forward) (result : Option Json) :
    Issues s ((s.forget f).settle now f result) := by
  obtain ⟨pending, asked⟩ := pending_settle (s.forget f) now f result
  refine issues_none asked (fun g hg => ?_) (issued_settle ..)
  rw [pending] at hg
  exact List.mem_of_mem_filter hg

theorem issues_settleAll (s : Server) (now : Nat) (fs : List Forward) :
    Issues s (s.settleAll now fs) := by
  induction fs generalizing s with
  | nil => exact issues_none rfl (fun _ hf => hf) rfl
  | cons f fs ih => exact (issues_settle s now f none).andThen (ih _)

theorem issues_turn (s : Server) (t : Turn) : Issues s (s.turn t) := by
  have outcome := outcome_turn s t
  generalize s.turn t = after at outcome
  cases outcome with
  | aside _ h => exact issues_none h.asked (fun f hf => h.pending ▸ hf) h.issued
  | asked q =>
    refine ⟨?_, Nat.le_succ _, fun f hf => ?_⟩
    · rw [ask, Nat.add_sub_cancel_left]
      rfl
    · rcases List.mem_append.mp hf with old | new
      · exact .inl old
      · obtain rfl := List.mem_singleton.mp new
        exact .inr List.mem_cons_self
  | resumed _ => exact issues_settle s _ _ _
  | withdrawn _ => exact issues_none rfl (fun f hf => List.mem_of_mem_filter hf) rfl
  | expired now => exact issues_settleAll s now _
  | reordered perm => exact issues_none rfl (fun f hf => perm.mem_iff.mp hf) rfl

theorem issues_turns (s : Server) (ts : List Turn) : Issues s (s.turns ts) :=
  turns_account (P := fun s _ after => Issues s after)
    (fun _ => issues_none rfl (fun _ hf => hf) rfl) (fun h h' => h.andThen h') issues_turn s ts

/-- A question with an old number that is open after some turns was open before them. -/
theorem mem_pending_of_turns {ts : List Turn} {f : Forward}
    (hf : f ∈ (s.turns ts).1.pending) (old : f.number ≤ s.asked) : f ∈ s.pending := by
  have issues := issues_turns s ts
  rcases issues.pending f hf with before | new
  · exact before
  · rw [issues.issued, List.mem_range'_1] at new
    omega

end Server

/-! ## 3. Without the host -/

/-- What answers a request if nothing comes from the host. -/
def Question.ownAnswer : Question → Answer
  | .completion offered _ => .completion false (offered.map .modifier)
  | .hover _ => .nothing

/-- The answer to the waiting request if nothing comes from the host. -/
def Forward.ownAnswer (f : Forward) : ServerMessage := .answer f.origin f.question.ownAnswer

namespace Server

/-- Nothing comes from the host: nothing is kept, and what there is without it is the answer. -/
theorem settle_none (s : Server) (now : Nat) (f : Forward) :
    s.settle now f none = (s, [f.ownAnswer]) := by
  obtain ⟨number, origin, deadline, question⟩ := f
  cases question with
  | completion offered target =>
    show (s, [ServerMessage.answer origin (.completion false (offered.map .modifier ++ []))]) = _
    rw [List.append_nil]
    rfl
  | hover fragment => rfl

theorem settleAll_eq (s : Server) (now : Nat) (fs : List Forward) :
    s.settleAll now fs
      = ({ s with pending := s.pending.filter fun g => fs.all (g.number != ·.number) },
        fs.map Forward.ownAnswer) := by
  induction fs generalizing s with
  | nil =>
    have all : s.pending.filter (fun g => ([] : List Forward).all (g.number != ·.number))
        = s.pending := List.filter_eq_self.mpr fun _ _ => rfl
    rw [all]
    rfl
  | cons f fs ih =>
    rw [settleAll, settle_none]
    dsimp only
    rw [ih, forget, List.filter_filter]
    simp only [List.all_cons, List.map_cons, Bool.and_comm, List.singleton_append]

/-- A tick answers the requests whose time has come without the host. The others stay, and nothing
else changes. -/
theorem Numbered.expire {s : Server} (n : s.Numbered) (now : Nat) :
    s.expire now
      = ({ s with pending := s.pending.filter (now < ·.deadline) },
        (s.pending.filter (·.deadline ≤ now)).map Forward.ownAnswer) := by
  have left : s.pending.filter (fun g => (s.pending.filter (·.deadline ≤ now)).all
      (g.number != ·.number)) = s.pending.filter (now < ·.deadline) := by
    refine List.filter_congr fun g hg => ?_
    rw [Bool.eq_iff_iff, List.all_eq_true, decide_eq_true_iff]
    refine ⟨fun others => ?_, fun ahead f hf => ?_⟩
    · by_contra late
      have due : g ∈ s.pending.filter (·.deadline ≤ now) :=
        List.mem_filter.mpr ⟨hg, by simpa using late⟩
      simpa using others g due
    · obtain ⟨mem, late⟩ := List.mem_filter.mp hf
      rw [bne_iff_ne]
      intro same
      obtain rfl := List.inj_on_of_nodup_map n.distinct hg mem same
      have := of_decide_eq_true late
      omega
  rw [Server.expire, settleAll_eq, left]

/-- The same of a table that is gone over in any order. The answers come in that order. -/
theorem Numbered.expire_of_perm {s : Server} (n : s.Numbered) {fs : List Forward}
    (perm : fs.Perm s.pending) (now : Nat) :
    Server.expire { s with pending := fs } now
      = ({ s with pending := fs.filter (now < ·.deadline) },
        (fs.filter (·.deadline ≤ now)).map Forward.ownAnswer) :=
  (n.of_perm perm).expire now

/-- The configuration of a server stays. -/
theorem config_turns (s : Server) (ts : List Turn) : (s.turns ts).1.config = s.config := by
  refine turns_account (P := fun s _ after => after.1.config = s.config) (fun _ => rfl)
    (fun h h' => h'.trans h) (fun s t => ?_) s ts
  have outcome := outcome_turn s t
  generalize s.turn t = after at outcome
  cases outcome with
  | aside _ h => exact h.config
  | asked q => rfl
  | resumed _ =>
    rw [settle]
    split <;> rfl
  | withdrawn _ => rfl
  | expired now =>
    rw [expire, settleAll_eq]
  | reordered _ => rfl

end Server

end OffsideMarkup
