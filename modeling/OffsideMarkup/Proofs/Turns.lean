/-
OffsideMarkup.Proofs.Turns — a session, turn by turn.

What is said about a message wherever it comes in a session is said about the server in front of it.
A session shows that server only between two events, so it is taken apart here into turns: a message
with those waiting behind it, a tick of the clock, or a change of the order in which the table of
open questions is gone over. A batch is all handled at one time, and no change of the order comes in
between. Turns have a time of their own each, and the order can change between any two of them, so
more can be said with turns than with events. Every session is its turns (`Session.run_eq_turns`),
and the servers it goes through are those after its first turns.

* `Server.turns_account` — what holds of one turn, and of one step after another, holds of turns.
* `Turn.messages_ofEvents` — the messages of a session that are handled are those of its turns.
-/
import Mathlib.Data.List.TakeWhile
import OffsideMarkup.Session.Run

namespace OffsideMarkup

/-! ## 1. Turns -/

/-- The requests among some messages. -/
def ClientMessage.requests : ClientMessage → List RequestId
  | .request id _ => [id]
  | _ => []

/-- What a server deals with at one time. -/
inductive Turn
  /-- A message, with those that are waiting behind it. -/
  | message (now : Nat) (waiting : List ClientMessage) (m : ClientMessage)
  | tick (now : Nat)
  /-- The table of open questions comes to be gone over in another order. -/
  | reorder (pending : List Forward)

namespace Turn

/-- The messages of a turn, at most one. -/
def messages : Turn → List ClientMessage
  | message _ _ m => [m]
  | tick _ | reorder _ => []

/-- The requests that come in with a turn. -/
def requests (t : Turn) : List RequestId := t.messages.flatMap ClientMessage.requests

/-- The turns of a batch: its messages up to the one that ends the session. -/
def ofBatch (now : Nat) : List ClientMessage → List Turn
  | [] => []
  | m :: later => if m.isExit then [] else .message now later m :: ofBatch now later

/-- The turns of a session. -/
def ofEvents : List Event → List Turn
  | [] => []
  | .tick now :: events => .tick now :: ofEvents events
  | .reorder pending :: events => .reorder pending :: ofEvents events
  | .batch now messages :: events =>
    ofBatch now messages
      ++ if messages.any ClientMessage.isExit then [] else ofEvents events

end Turn

namespace Server

/-- The server after a turn, and the messages that it sends. -/
def turn (s : Server) : Turn → Server × List ServerMessage
  | .message now waiting m => s.handle now waiting m
  | .tick now => s.expire now
  | .reorder pending => (s.reorder pending, [])

/-- The server after some turns, and all messages that it sends. -/
def turns (s : Server) : List Turn → Server × List ServerMessage
  | [] => (s, [])
  | t :: ts =>
    let first := s.turn t
    let others := first.1.turns ts
    (others.1, first.2 ++ others.2)

theorem turns_append (s : Server) (ts us : List Turn) :
    s.turns (ts ++ us)
      = (((s.turns ts).1.turns us).1, (s.turns ts).2 ++ ((s.turns ts).1.turns us).2) := by
  induction ts generalizing s with
  | nil => rfl
  | cons t ts ih => rw [List.cons_append, turns, ih, turns, List.append_assoc]

/-- What holds of one turn, and of one step after another, holds of any number of turns. -/
theorem turns_account {P : Server → List Turn → Server × List ServerMessage → Prop}
    (nothing : ∀ s, P s [] (s, []))
    (andThen : ∀ {s : Server} {first second : Server × List ServerMessage} {ts us : List Turn},
      P s ts first → P first.1 us second → P s (ts ++ us) (second.1, first.2 ++ second.2))
    (turn : ∀ s t, P s [t] (s.turn t)) (s : Server) (ts : List Turn) : P s ts (s.turns ts) := by
  induction ts generalizing s with
  | nil => exact nothing s
  | cons t ts ih => exact andThen (turn s t) (ih (s.turn t).1)

end Server

/-! ## 2. Sessions -/

/-- The messages of some events that are handled: all of them up to the first that ends the
session. -/
def handledMessages : List Event → List ClientMessage
  | [] => []
  | .tick _ :: events | .reorder _ :: events => handledMessages events
  | .batch _ messages :: events =>
    if messages.any ClientMessage.isExit then messages.takeWhile (!·.isExit)
    else messages ++ handledMessages events

namespace Session

theorem isClosed_handleAll (s : Server) (now : Nat) (messages : List ClientMessage) :
    (handleAll s now messages).1.isClosed = messages.any ClientMessage.isExit := by
  induction messages generalizing s with
  | nil => rfl
  | cons m later ih =>
    rw [handleAll, List.any_cons]
    cases exit : m.isExit with
    | true => rfl
    | false => exact ih _

theorem step_of_closed {s : Session} (h : s.isClosed = true) (e : Event) : s.step e = (s, []) := by
  simp only [step, if_pos h]

/-- Once it has come to its end, nothing happens to a session any more. -/
theorem run_of_closed {s : Session} (h : s.isClosed = true) (events : List Event) :
    s.run events = (s, []) := by
  induction events with
  | nil => rfl
  | cons e events ih => simp only [run, step_of_closed h, ih, List.append_nil]

theorem handleAll_eq_turns (s : Server) (now : Nat) (messages : List ClientMessage) :
    ((handleAll s now messages).1.server, (handleAll s now messages).2)
      = s.turns (Turn.ofBatch now messages) := by
  induction messages generalizing s with
  | nil => rfl
  | cons m later ih =>
    rw [handleAll, Turn.ofBatch]
    cases m.isExit with
    | true => rfl
    | false =>
      rw [if_neg Bool.false_ne_true, if_neg Bool.false_ne_true, Server.turns, Server.turn, ← ih]

/-- A session is its turns. -/
theorem run_eq_turns {s : Session} (going : s.isClosed = false) (events : List Event) :
    ((s.run events).1.server, (s.run events).2) = s.server.turns (Turn.ofEvents events) := by
  induction events generalizing s with
  | nil => rfl
  | cons e events ih =>
    cases e with
    | tick now =>
      have rest := ih (s := ⟨(s.server.expire now).1, false⟩) rfl
      rw [run, step, if_neg (by simp [going]), Turn.ofEvents, Server.turns]
      exact congrArg (fun r => (r.1, (s.server.expire now).2 ++ r.2)) rest
    | reorder pending =>
      have rest := ih (s := ⟨s.server.reorder pending, false⟩) rfl
      rw [run, step, if_neg (by simp [going]), Turn.ofEvents, Server.turns]
      exact rest
    | batch now messages =>
      have first := handleAll_eq_turns s.server now messages
      have closed := isClosed_handleAll s.server now messages
      rw [run, step, if_neg (by simp [going]), Turn.ofEvents, Server.turns_append, ← first]
      dsimp only
      cases exit : messages.any ClientMessage.isExit with
      | true =>
        rw [exit] at closed
        rw [run_of_closed closed, if_pos rfl]
        rfl
      | false =>
        rw [exit] at closed
        rw [if_neg Bool.false_ne_true, ← ih closed]

/-- The same from the start. -/
theorem turns_ofEvents (config : Config) (events : List Event) :
    (Server.create config).turns (Turn.ofEvents events)
      = (((create config).run events).1.server, ((create config).run events).2) :=
  (run_eq_turns (s := create config) rfl events).symm

end Session

theorem Turn.messages_ofBatch (now : Nat) (messages : List ClientMessage) :
    (ofBatch now messages).flatMap Turn.messages = messages.takeWhile (!·.isExit) := by
  induction messages with
  | nil => rfl
  | cons m later ih =>
    rw [ofBatch]
    cases exit : m.isExit with
    | true => rw [if_pos rfl, List.takeWhile_cons_of_neg (by simp [exit])]; rfl
    | false =>
      rw [if_neg Bool.false_ne_true, List.flatMap_cons, ih,
        List.takeWhile_cons_of_pos (by simp [exit])]
      rfl

/-- The messages of the turns of a session are those that are handled in it. -/
theorem Turn.messages_ofEvents (events : List Event) :
    (ofEvents events).flatMap Turn.messages = handledMessages events := by
  induction events with
  | nil => rfl
  | cons e events ih =>
    cases e with
    | tick now => exact ih
    | reorder pending => exact ih
    | batch now messages =>
      rw [ofEvents, List.flatMap_append, messages_ofBatch, handledMessages]
      cases exit : messages.any ClientMessage.isExit with
      | true => exact List.append_nil _
      | false =>
        have all : messages.takeWhile (!·.isExit) = messages := by
          rw [List.takeWhile_eq_self_iff]
          intro m hm
          rw [List.any_eq_false] at exit
          simpa using exit m hm
        rw [all, if_neg Bool.false_ne_true, if_neg Bool.false_ne_true, ih]

end OffsideMarkup
