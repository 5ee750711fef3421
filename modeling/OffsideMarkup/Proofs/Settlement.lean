/-
OffsideMarkup.Proofs.Settlement — every request is settled exactly once.

A request is answered in its own step, or it waits for the host and is settled later by a reply, by
the clock or by a cancellation. `Balanced` is the account of one step: the messages that settle a
request, with those that keep it waiting, are as many as before and one more for the request that
has come in. Steps are joined by `Balanced.andThen`, so turns are accounted for by each of them
(`balanced_turns`), whatever their order.

The account needs one invariant, that no two questions have the same number (`Numbered`): settling
one then takes exactly one request off the list. New numbers are above all that were used, and
nothing else adds to the list.

* `balanced_handle` — one message of the editor.
* `balanced_expire`, `pending_expire` — one tick of the clock.
* `balanced_reorder` — one change of the order in which the open questions are gone over.
* `exactly_one_answer` — a whole session, and any turns.
-/
import Mathlib.Data.List.Nodup
import OffsideMarkup.Proofs.Turns

namespace OffsideMarkup

namespace Server

/-! ## 1. Accounts -/

/-- How many of these messages settle a request. -/
def settled (id : RequestId) (messages : List ServerMessage) : Nat :=
  (messages.filterMap ServerMessage.settles?).count id

/-- How many questions are open on behalf of a request. -/
def waiting (id : RequestId) (s : Server) : Nat := s.pending.countP (·.origin = id)

/-- No two questions have the same number, and none has one that is still to be given. -/
structure Numbered (s : Server) : Prop where
  distinct : (s.pending.map Forward.number).Nodup
  asked : ∀ f ∈ s.pending, f.number ≤ s.asked

/-- The account of a step in which these requests have come in. -/
structure Balanced (s : Server) (requests : List RequestId)
    (after : Server × List ServerMessage) : Prop where
  numbered : s.Numbered → after.1.Numbered
  balance : s.Numbered → ∀ id, settled id after.2 + waiting id after.1
    = waiting id s + requests.count id

theorem settled_append (id : RequestId) (ms ns : List ServerMessage) :
    settled id (ms ++ ns) = settled id ms + settled id ns := by
  rw [settled, List.filterMap_append, List.count_append]
  rfl

/-- One step after another. -/
theorem Balanced.andThen {s : Server} {first second : Server × List ServerMessage}
    {xs ys : List RequestId} (h : Balanced s xs first) (h' : Balanced first.1 ys second) :
    Balanced s (xs ++ ys) (second.1, first.2 ++ second.2) := by
  refine ⟨fun n => h'.numbered (h.numbered n), fun n id => ?_⟩
  have one := h.balance n id
  have two := h'.balance (h.numbered n) id
  rw [settled_append, List.count_append]
  dsimp only
  omega

/-- A step that leaves the open questions alone is balanced by its messages. -/
theorem balanced_of_pending {s : Server} {after : Server × List ServerMessage}
    {requests : List RequestId} (pending : after.1.pending = s.pending)
    (asked : after.1.asked = s.asked)
    (messages : ∀ id, settled id after.2 = requests.count id) : Balanced s requests after := by
  refine ⟨fun n => ⟨by rw [pending]; exact n.distinct, by rw [pending, asked]; exact n.asked⟩,
    fun _ id => ?_⟩
  rw [messages, waiting, waiting, pending, Nat.add_comm]

/-- What sends nothing that settles, and changes no question, is balanced. -/
theorem balanced_same (s : Server) : Balanced s [] (s, []) :=
  balanced_of_pending rfl rfl fun _ => rfl

/-! ## 2. Questions -/

/-- A new question keeps its request waiting. -/
theorem balanced_ask (s : Server) (now : Nat) (id : RequestId) (q : Question) :
    Balanced s [id] (s.ask now id q) := by
  refine ⟨fun n => ⟨?_, ?_⟩, fun _ other => ?_⟩
  · have fresh : ∀ f ∈ s.pending, f.number ≠ s.asked + 1 := fun f hf => by
      have := n.asked f hf
      omega
    show ((s.pending ++ [_]).map Forward.number).Nodup
    rw [List.map_append, List.map_singleton, List.nodup_append]
    refine ⟨n.distinct, List.nodup_singleton _, ?_⟩
    intro k hk m hm
    obtain ⟨f, hf, rfl⟩ := List.mem_map.mp hk
    obtain rfl := List.mem_singleton.mp hm
    exact fresh f hf
  · intro f hf
    rcases List.mem_append.mp hf with hf | hf
    · exact Nat.le_succ_of_le (n.asked f hf)
    · obtain rfl := List.mem_singleton.mp hf
      exact Nat.le_refl _
  · show 0 + (s.pending ++ [_]).countP _ = _
    rw [Nat.zero_add, List.countP_append, List.countP_singleton, waiting, List.count_singleton]
    rfl

/-- Of questions with different numbers, those with another number are all but one. -/
theorem perm_forget {fs : List Forward} (distinct : (fs.map Forward.number).Nodup) {f : Forward}
    (hf : f ∈ fs) : fs.Perm (f :: fs.filter (·.number != f.number)) := by
  induction fs with
  | nil => exact absurd hf (by simp)
  | cons g fs ih =>
    rw [List.map_cons, List.nodup_cons] at distinct
    rcases List.mem_cons.mp hf with rfl | later
    · have others : fs.filter (·.number != f.number) = fs := by
        rw [List.filter_eq_self]
        intro h hh
        rw [bne_iff_ne]
        exact fun same => distinct.1 (same ▸ List.mem_map_of_mem hh)
      rw [List.filter_cons_of_neg (by simp), others]
    · have other : g.number ≠ f.number := fun same =>
        distinct.1 (same ▸ List.mem_map_of_mem later)
      rw [List.filter_cons_of_pos (by simpa using other)]
      exact ((ih distinct.2 later).cons g).trans (List.Perm.swap f g _)

theorem Numbered.forget {s : Server} (n : s.Numbered) (f : Forward) : (s.forget f).Numbered := by
  refine ⟨?_, fun g hg => n.asked g (List.mem_of_mem_filter hg)⟩
  exact n.distinct.sublist (List.filter_sublist.map Forward.number)

theorem waiting_forget {s : Server} (n : s.Numbered) {f : Forward} (hf : f ∈ s.pending)
    (id : RequestId) : [f.origin].count id + waiting id (s.forget f) = waiting id s := by
  have perm := (perm_forget n.distinct hf).countP_eq (fun g => decide (g.origin = id))
  rw [waiting, waiting, perm, List.countP_cons, List.count_singleton, Nat.add_comm]
  simp [Server.forget]

/-- A question that is settled with one message is settled. -/
theorem balanced_forget {s : Server} {f : Forward} (hf : f ∈ s.pending)
    {after : Server × List ServerMessage}
    (pending : after.1.pending = (s.forget f).pending) (asked : after.1.asked = s.asked)
    (messages : ∀ id, settled id after.2 = [f.origin].count id) : Balanced s [] after := by
  refine ⟨fun n => ?_, fun n id => ?_⟩
  · have left := n.forget f
    exact ⟨by rw [pending]; exact left.distinct, by rw [pending, asked]; exact left.asked⟩
  · have whole := waiting_forget n hf id
    have same : waiting id after.1 = waiting id (s.forget f) := by rw [waiting, waiting, pending]
    rw [messages, same, whole]
    rfl

theorem pending_settle (s : Server) (now : Nat) (f : Forward) (result : Option Json) :
    (s.settle now f result).1.pending = s.pending ∧ (s.settle now f result).1.asked = s.asked := by
  rw [settle]
  split <;> exact ⟨rfl, rfl⟩

theorem settled_settle (s : Server) (now : Nat) (f : Forward) (result : Option Json)
    (id : RequestId) : settled id (s.settle now f result).2 = [f.origin].count id := by
  rw [settle]
  split <;> rfl

theorem balanced_settle {s : Server} {f : Forward} (hf : f ∈ s.pending) (now : Nat)
    (result : Option Json) : Balanced s [] ((s.forget f).settle now f result) :=
  balanced_forget hf (pending_settle ..).1 (pending_settle ..).2 (settled_settle _ now f result)

theorem balanced_resume (s : Server) (now : Nat) (id : RequestId) (reply : HostReply) :
    Balanced s [] (s.resume now id reply) := by
  rw [resume]
  split
  · next f found => exact balanced_settle (List.mem_of_find?_eq_some found) now _
  · exact balanced_same s

theorem balanced_cancel (s : Server) (id : RequestId) : Balanced s [] (s.cancel id) := by
  rw [cancel]
  split
  · next f found =>
    have origin : f.origin = id := by simpa using List.find?_some found
    refine balanced_forget (List.mem_of_find?_eq_some found) rfl rfl fun other => ?_
    rw [origin]
    rfl
  · exact balanced_same s

/-! ## 3. The clock -/

theorem balanced_settleAll {s : Server} (now : Nat) {fs : List Forward}
    (open' : ∀ f ∈ fs, f ∈ s.pending) (distinct : (fs.map Forward.number).Nodup) :
    Balanced s [] (s.settleAll now fs) := by
  induction fs generalizing s with
  | nil => exact balanced_same s
  | cons f fs ih =>
    rw [List.map_cons, List.nodup_cons] at distinct
    have first := balanced_settle (open' f List.mem_cons_self) now none
    have still : ∀ g ∈ fs, g ∈ ((s.forget f).settle now f none).1.pending := by
      intro g hg
      rw [(pending_settle ..).1]
      refine List.mem_filter.mpr ⟨open' g (List.mem_cons_of_mem f hg), ?_⟩
      rw [bne_iff_ne]
      exact fun same => distinct.1 (same ▸ List.mem_map_of_mem hg)
    exact first.andThen (ih still distinct.2)

/-- The questions that are left when some are settled are those with other numbers. -/
theorem pending_settleAll (s : Server) (now : Nat) (fs : List Forward) :
    ∀ f ∈ (s.settleAll now fs).1.pending,
      f ∈ s.pending ∧ ∀ g ∈ fs, f.number ≠ g.number := by
  induction fs generalizing s with
  | nil => intro f hf; exact ⟨hf, by simp⟩
  | cons g fs ih =>
    intro f hf
    obtain ⟨left, others⟩ := ih _ f hf
    rw [(pending_settle ..).1] at left
    obtain ⟨mem, other⟩ := List.mem_filter.mp left
    exact ⟨mem, List.forall_mem_cons.mpr ⟨by simpa using other, others⟩⟩

theorem balanced_expire (s : Server) (n : s.Numbered) (now : Nat) :
    Balanced s [] (s.expire now) :=
  balanced_settleAll now (fun _ hf => List.mem_of_mem_filter hf)
    (n.distinct.sublist (List.filter_sublist.map Forward.number))

/-- What is still pending behind a tick has its deadline ahead. -/
theorem pending_expire (s : Server) (now : Nat) :
    ∀ f ∈ (s.expire now).1.pending, f ∈ s.pending ∧ now < f.deadline := by
  intro f hf
  obtain ⟨mem, others⟩ := pending_settleAll s now _ f hf
  refine ⟨mem, ?_⟩
  by_contra late
  exact others f (List.mem_filter.mpr ⟨mem, by simpa using late⟩) rfl

/-! ## 4. Requests -/

/-- A request that is answered in its own step. -/
theorem balanced_answered {s : Server} {id : RequestId} {after : Server × List ServerMessage}
    (pending : after.1.pending = s.pending) (asked : after.1.asked = s.asked)
    (one : ∃ m, after.2 = [m] ∧ m.settles? = some id) : Balanced s [id] after := by
  refine balanced_of_pending pending asked fun other => ?_
  obtain ⟨m, only, settles⟩ := one
  rw [only, settled, List.filterMap_cons, settles]
  rfl

theorem settles?_reply (id : RequestId) (outcome : Except Fault Answer) :
    (reply id outcome).settles? = some id := by
  cases outcome <;> rfl

theorem balanced_withDocument {s : Server} {id : RequestId} {uri : String}
    {next : Analysis → Server × List ServerMessage} (h : ∀ a, Balanced s [id] (next a)) :
    Balanced s [id] (s.withDocument id uri next) := by
  rw [withDocument]
  split
  · exact h _
  · exact balanced_answered rfl rfl ⟨_, rfl, settles?_reply id _⟩

theorem balanced_complete (s : Server) (now : Nat) (id : RequestId) (a : Analysis) (p : Position) :
    Balanced s [id] (s.complete now id a p) := by
  rw [complete]
  split
  · exact balanced_answered rfl rfl ⟨_, rfl, rfl⟩
  · split
    · exact balanced_answered rfl rfl ⟨_, rfl, rfl⟩
    · exact balanced_ask s now id _

theorem balanced_explain (s : Server) (now : Nat) (id : RequestId) (a : Analysis) (p : Position) :
    Balanced s [id] (s.explain now id a p) := by
  rw [explain]
  split
  · exact balanced_answered rfl rfl ⟨_, rfl, rfl⟩
  · exact balanced_answered rfl rfl ⟨_, rfl, rfl⟩
  · exact balanced_ask s now id _

theorem balanced_serve (s : Server) (now : Nat) (cancelled : Bool) (id : RequestId)
    (request : Request) : Balanced s [id] (s.serve now cancelled id request) := by
  cases request with
  | shutdown => exact balanced_answered rfl rfl ⟨_, rfl, rfl⟩
  | folds uri =>
    exact balanced_withDocument fun a => balanced_answered rfl rfl ⟨_, rfl, settles?_reply id _⟩
  | symbols uri =>
    exact balanced_withDocument fun a => balanced_answered rfl rfl ⟨_, rfl, settles?_reply id _⟩
  | highlights uri =>
    exact balanced_withDocument fun a => balanced_answered rfl rfl ⟨_, rfl, settles?_reply id _⟩
  | completion uri p => exact balanced_withDocument fun a => balanced_complete s now id a p
  | hover uri p => exact balanced_withDocument fun a => balanced_explain s now id a p
  | keyHints uri => exact balanced_withDocument fun a => balanced_answered rfl rfl ⟨_, rfl, rfl⟩

/-- A request is settled in its step or waits: refused in a server that is shutting down, refused if
it means nothing, or served. -/
theorem balanced_answer (s : Server) (now : Nat) (cancelled : Bool) (id : RequestId)
    (body : Except Refusal Request) : Balanced s [id] (s.answer now cancelled id body) := by
  simp only [answer]
  split
  · exact balanced_answered rfl rfl ⟨_, rfl, rfl⟩
  · split
    · exact balanced_answered rfl rfl ⟨_, rfl, rfl⟩
    · exact balanced_serve s now cancelled id _

/-! ## 5. Messages -/

theorem balanced_notice (s : Server) (n : Notification) : Balanced s [] (s.notice n) := by
  cases n with
  | opened uri language version text => exact balanced_of_pending rfl rfl fun _ => rfl
  | changed uri version changes =>
    rw [notice]
    split
    · exact balanced_of_pending rfl rfl fun _ => rfl
    · exact balanced_same s
  | closed uri => exact balanced_of_pending rfl rfl fun _ => rfl
  | cancelled id => exact balanced_cancel s id
  | exit => exact balanced_same s

end Server

/-- One message of the editor, whatever stands behind it. -/
theorem Server.balanced_handle (s : Server) (now : Nat) (later : List ClientMessage)
    (m : ClientMessage) : Balanced s m.requests (s.handle now later m) := by
  cases m with
  | request id body => exact balanced_answer s now _ id body
  | response id reply => exact balanced_resume s now id reply
  | notification n =>
    cases n with
    | none => exact balanced_same s
    | some n =>
      rw [handle]
      split
      · exact balanced_same s
      · exact balanced_notice s n

namespace Server

/-! ## 6. Turns -/

/-- In whatever order they are gone over, the open questions are the same ones. -/
theorem reorder_eq (s : Server) (pending : List Forward) :
    ∃ fs, fs.Perm s.pending ∧ s.reorder pending = { s with pending := fs } := by
  rw [reorder]
  split
  · next perm => exact ⟨pending, perm, rfl⟩
  · exact ⟨s.pending, .refl _, rfl⟩

theorem Numbered.of_perm {s : Server} (n : s.Numbered) {fs : List Forward}
    (perm : fs.Perm s.pending) : Numbered { s with pending := fs } :=
  ⟨(perm.map Forward.number).nodup_iff.mpr n.distinct, fun f hf => n.asked f (perm.mem_iff.mp hf)⟩

theorem balanced_reorder (s : Server) (pending : List Forward) :
    Balanced s [] (s.reorder pending, []) := by
  obtain ⟨fs, perm, same⟩ := s.reorder_eq pending
  rw [same]
  refine ⟨fun n => n.of_perm perm, fun _ id => ?_⟩
  exact (Nat.zero_add _).trans (perm.countP_eq _)

/-- Turns are balanced by the requests that come in with them. -/
theorem balanced_turns {s : Server} (n : s.Numbered) (ts : List Turn) :
    Balanced s (ts.flatMap Turn.requests) (s.turns ts) := by
  have balanced := turns_account
    (P := fun s ts after => s.Numbered → Balanced s (ts.flatMap Turn.requests) after)
    (fun s _ => balanced_same s)
    (fun h h' n => by
      rw [List.flatMap_append]
      exact (h n).andThen (h' ((h n).numbered n)))
    (fun s t n => by
      rw [List.flatMap_singleton]
      cases t with
      | message now waiting m =>
        rw [Turn.requests, Turn.messages, List.flatMap_singleton]
        exact balanced_handle s now waiting m
      | tick now => exact balanced_expire s n now
      | reorder pending => exact balanced_reorder s pending) s ts
  exact balanced n

theorem numbered_create (config : Config) : (create config).Numbered :=
  ⟨List.nodup_nil, fun f hf => absurd hf (by simp [create])⟩

theorem numbered_turns (config : Config) (ts : List Turn) :
    ((create config).turns ts).1.Numbered :=
  (balanced_turns (numbered_create config) ts).numbered (numbered_create config)

/-- What the account says about the turns since the start of a session. -/
theorem settled_turns (config : Config) (ts : List Turn) :
    (∀ id, (((create config).turns ts).2.filterMap ServerMessage.settles?).count id
          + ((create config).turns ts).1.pending.countP (·.origin = id)
        = (ts.flatMap Turn.requests).count id)
      ∧ ∀ m ∈ ((create config).turns ts).2, ∀ id ∈ m.settles?, id ∈ ts.flatMap Turn.requests := by
  have account : ∀ id, settled id ((create config).turns ts).2
      + waiting id ((create config).turns ts).1 = (ts.flatMap Turn.requests).count id := by
    intro id
    have balance := (balanced_turns (numbered_create config) ts).balance (numbered_create config) id
    rwa [show waiting id (create config) = 0 from rfl, Nat.zero_add] at balance
  refine ⟨account, fun m hm id settles => ?_⟩
  have counted : 0 < settled id ((create config).turns ts).2 :=
    List.count_pos_iff.mpr (List.mem_filterMap.mpr ⟨m, hm, settles⟩)
  rw [← List.count_pos_iff, ← account]
  exact Nat.lt_of_lt_of_le counted (Nat.le_add_right ..)

/-- Nothing is pending behind a tick that comes behind every deadline. -/
theorem pending_expire_of_late {s : Server} {now : Nat}
    (late : ∀ f ∈ s.pending, f.deadline ≤ now) : (s.expire now).1.pending = [] := by
  rw [List.eq_nil_iff_forall_not_mem]
  intro f hf
  obtain ⟨mem, ahead⟩ := pending_expire s now f hf
  have := late f mem
  omega

end Server

/-! ## 7. Sessions -/

/-- Over any session, up to its end: as many messages settle a request as there were requests with
its identifier, those still pending aside. Nothing is settled that was not asked for. When the
clock ticks behind every deadline, nothing stays pending. The same holds over any turns, each at a
time of its own, in whatever order the open questions are gone over. -/
theorem exactly_one_answer (config : Config) :
    (∀ events, let after := (Session.create config).run events
      (∀ id, (after.2.filterMap ServerMessage.settles?).count id
            + after.1.server.pending.countP (·.origin = id)
          = ((handledMessages events).flatMap ClientMessage.requests).count id)
        ∧ (∀ m ∈ after.2, ∀ id ∈ m.settles?,
            id ∈ (handledMessages events).flatMap ClientMessage.requests)
        ∧ (after.1.isClosed = false → ∀ now,
            (∀ f ∈ after.1.server.pending, f.deadline ≤ now) →
              (after.1.step (.tick now)).1.server.pending = []))
    ∧ ∀ ts : List Turn, let after := (Server.create config).turns ts
      (∀ id, (after.2.filterMap ServerMessage.settles?).count id
            + after.1.pending.countP (·.origin = id)
          = (ts.flatMap Turn.requests).count id)
        ∧ (∀ m ∈ after.2, ∀ id ∈ m.settles?, id ∈ ts.flatMap Turn.requests)
        ∧ ∀ now, (∀ f ∈ after.1.pending, f.deadline ≤ now) →
            (after.1.turns [.tick now]).1.pending = [] := by
  refine ⟨fun events => ?_, fun ts => ?_⟩
  · have settled := Server.settled_turns config (Turn.ofEvents events)
    have requests : (Turn.ofEvents events).flatMap Turn.requests
        = (handledMessages events).flatMap ClientMessage.requests := by
      rw [← Turn.messages_ofEvents, List.flatMap_assoc]
      rfl
    rw [Session.turns_ofEvents, requests] at settled
    refine ⟨settled.1, settled.2, fun going now late => ?_⟩
    rw [Session.step, if_neg (by simp [going])]
    exact Server.pending_expire_of_late late
  · obtain ⟨account, asked⟩ := Server.settled_turns config ts
    exact ⟨account, asked, fun now late => Server.pending_expire_of_late late⟩

end OffsideMarkup
